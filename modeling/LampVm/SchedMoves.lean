import LampVm.Waitpid

/-!
# Runs of the scheduler

The scheduler's operations in any order, from `sched_init` on. A callback may return at
any time and any slot may be current afterwards, so the runs of the kernel are among
these. Every operation is a chain of moves, each of which changes one slot in one of a
few ways, and an invariant of the scheduler is proved once for each move.
-/
namespace LampVm

open Transition

/-! ## The operations -/

inductive SchedOp
  | call (c : SchedCall)
  /-- A descriptor call, which changes nothing but the current task's descriptors. -/
  | fds (table : FdTable)
  | tick
  /-- `sched_run` up to the call of a callback. -/
  | select
  /-- `sched_pump_once` up to the call of a callback. -/
  | pump
  /-- What both do after the callback of slot `i` has returned. -/
  | leave (i : TaskIdx) (prev : Option TaskIdx)

def schedRunEnter (s : Sched) : Sched :=
  let s := runSelect s
  if invocable s s.currentIdx then enterTask s.currentIdx s else s.resched

def schedPumpEnter (s : Sched) : Sched :=
  let next := schedPickNextIdx s
  if invocable s next then enterTask next { s with currentIdx := next } else s

def schedSetFds (table : FdTable) (s : Sched) : Sched :=
  match schedCurrentSlot s with
  | none => s
  | some i => s.setTask i { s.tasks i with fds := table }

def SchedOp.run : SchedOp → Sched → Sched
  | .call c => c.run
  | .fds table => schedSetFds table
  | .tick => scheduleTick
  | .select => schedRunEnter
  | .pump => schedPumpEnter
  | .leave i prev => fun s => { leaveTask i s with currentIdx := prev.getD s.currentIdx }

/-- A task sleeps on the console's queue or on the queue of its own children. -/
def SchedOp.ownQueue (s : Sched) : SchedOp → Prop
  | .call (.waitqSleep q _) => q = .console ∨ q = .child s.currentIdx
  | _ => True

def schedOps : System Sched SchedOp where
  init s := s = schedInit
  step s op t := op.ownQueue s ∧ t = op.run s

theorem reachable_op {s : Sched} (h : Reachable schedOps s) (op : SchedOp) (hown : op.ownQueue s) :
    Reachable schedOps (op.run s) :=
  h.step ⟨hown, rfl⟩

/-- The operations determine the run. -/
theorem run_eq_foldl {s t : Sched} {ops : List SchedOp} (h : Run schedOps s ops t) :
    t = ops.foldl (fun u op => op.run u) s := by
  induction h with
  | nil => rfl
  | snoc _ hs ih => rw [List.foldl_append, ← ih, hs.2, List.foldl_cons, List.foldl_nil]

/-- What a run tells about its tasks. -/
inductive SchedEvent
  | spawned (tid : BitVec 32)
  | exited (tid : BitVec 32)
  | reaped (tid : BitVec 32)
  deriving DecidableEq, Repr

/-- A positive result of `sched_waitpid` is the identifier of the child it reaped. -/
def reapEvents (rc : ℤ) : List SchedEvent :=
  if 0 < rc then [.reaped (BitVec.ofInt 32 rc)] else []

def SchedOp.events (s : Sched) : SchedOp → List SchedEvent
  | .call (.spawn entry) =>
    if entry.isSome ∧ (schedAllocSlot s).isSome then [.spawned s.nextTid] else []
  | .call (.exitCode _) =>
    match schedCurrentSlot s with
    | none => []
    | some i => if (s.tasks i).isIdle then [] else [.exited (s.tasks i).tid]
  | .call (.waitpid pid options) => reapEvents (schedWaitpid pid options s).1
  | _ => []

/-- The operations that put the current task to sleep. -/
def SchedOp.rests (s : Sched) : SchedOp → Prop
  | .call (.sleepTicks _) => True
  | .call (.waitqSleep _ _) => True
  | .call (.waitpid pid options) => options &&& schedWaitpidWnohang = 0 ∧
      (schedTryReapChild (s.tasks s.currentIdx).tid pid s).1 = 0
  | _ => False

/-! ## Moves -/

/-- The same task, apart from its state, its exit code and the queue it waits on. -/
structure SameTask (a b : TaskSlot) : Prop where
  tid : b.tid = a.tid
  used : b.used = a.used
  isIdle : b.isIdle = a.isIdle
  parentTid : b.parentTid = a.parentTid
  entry : b.entry = a.entry

/-- Only slot `i` and no queue has changed. -/
structure OneSlot (s : Sched) (i : TaskIdx) (b : TaskSlot) (t : Sched) : Prop where
  tasks : t.tasks = Function.update s.tasks i b
  waitqs : t.waitqs = s.waitqs
  nextTid : t.nextTid = s.nextTid

/-- The bit with which a task enters a queue. -/
def Sched.enqueue (s : Sched) (q : WaitqRef) (i : TaskIdx) : Sched :=
  { s with waitqs := Function.update s.waitqs q (Function.update (s.waitqs q) i true) }

/-- What `sched_spawn` changes outside the slot's fields: the queue of its children and
the next identifier. -/
def Sched.numbered (s : Sched) (i : TaskIdx) : Sched :=
  { schedWaitqInit (.child i) s with
    nextTid := if s.nextTid + 1 = 0 then 1 else s.nextTid + 1 }

/-- How an operation that starts in `s₀` can change the state of a task. -/
inductive StateMove (op : SchedOp) (s₀ s : Sched) (i : TaskIdx) : TaskState → Prop
  | keep : StateMove op s₀ s i (s.tasks i).state
  | wake (hused : (s.tasks i).used = true) (hfree : (s.tasks i).waitq = none)
      (hwaits : (s.tasks i).state = .blocked ∨ (s.tasks i).state = .sleeping) :
      StateMove op s₀ s i .runnable
  | enter (hrunnable : (s.tasks i).state = .runnable) : StateMove op s₀ s i .running
  | pause (hrunning : (s.tasks i).state = .running) : StateMove op s₀ s i .runnable
  | sleep (hself : i = s₀.currentIdx) (hrests : op.rests s₀) (hused : (s.tasks i).used = true)
      (hactive : (s.tasks i).isIdle = false) : StateMove op s₀ s i .sleeping

/-- One change of one slot by an operation that starts in `s₀`, with what it tells. -/
inductive SchedMove (op : SchedOp) (s₀ s : Sched) : List SchedEvent → Sched → Prop
  | state {i : TaskIdx} {b : TaskSlot} {t : Sched} (ht : OneSlot s i b t)
      (hsame : SameTask (s.tasks i) b) (hwaitq : b.waitq = (s.tasks i).waitq)
      (hcode : b.exitCode = (s.tasks i).exitCode) (hstate : StateMove op s₀ s i b.state) :
      SchedMove op s₀ s [] t
  | die {i : TaskIdx} {b : TaskSlot} {t : Sched} (ht : OneSlot s i b t) (hself : i = s₀.currentIdx)
      (hop : op = .call (.exitCode b.exitCode)) (hused : (s.tasks i).used = true)
      (hactive : (s.tasks i).isIdle = false) (hfree : (s.tasks i).waitq = none)
      (hsame : SameTask (s.tasks i) b) (hwaitq : b.waitq = none) (hdead : b.state = .zombie) :
      SchedMove op s₀ s [.exited (s.tasks i).tid] t
  | detach (i : TaskIdx) : SchedMove op s₀ s [] (schedDetachWaitq i s)
  | attach {i : TaskIdx} {q : WaitqRef} {b : TaskSlot} {t : Sched}
      (ht : OneSlot (s.enqueue q i) i b t) (hself : i = s₀.currentIdx) (hrests : op.rests s₀) (hused : (s.tasks i).used = true)
      (hactive : (s.tasks i).isIdle = false) (hfree : (s.tasks i).waitq = none)
      (hown : q = .console ∨ q = .child i) (hsame : SameTask (s.tasks i) b)
      (hwaitq : b.waitq = some q) (hcode : b.exitCode = (s.tasks i).exitCode)
      (hblocked : b.state = .blocked) : SchedMove op s₀ s [] t
  | reap (i : TaskIdx) (hop : ∃ pid options, op = .call (.waitpid pid options))
      (hused : (s.tasks i).used = true) (hactive : (s.tasks i).isIdle = false)
      (hdead : (s.tasks i).state = .zombie) (hcaller : (s.tasks s.currentIdx).used = true)
      (hcallerActive : (s.tasks s.currentIdx).isIdle = false)
      (hparent : (s.tasks i).parentTid = (s.tasks s.currentIdx).tid) :
      SchedMove op s₀ s (reapEvents (s.tasks i).tid.toInt) (schedClearTask i s)
  | spawn {i : TaskIdx} {b : TaskSlot} {t : Sched} (ht : OneSlot (s.numbered i) i b t)
      (hop : ∃ entry, op = .call (.spawn entry)) (hslot : i ≠ 0)
      (hunused : (s.tasks i).used = false) (htid : b.tid = s.nextTid) (hused : b.used = true)
      (hactive : b.isIdle = false) (hstate : b.state = .runnable) (hwaitq : b.waitq = none)
      (hparent : b.parentTid = 0 ∨ b.parentTid = (s.tasks s.currentIdx).tid) :
      SchedMove op s₀ s [.spawned s.nextTid] t

/-- The moves of an operation as a system of their own. -/
def schedMoves (op : SchedOp) (s₀ : Sched) : System Sched (List SchedEvent) where
  init s := s = s₀
  step := SchedMove op s₀

/-- A chain of moves and all that it tells. -/
def Moves (op : SchedOp) (s₀ s : Sched) (es : List SchedEvent) (t : Sched) : Prop :=
  ∃ ls, Run (schedMoves op s₀) s ls t ∧ ls.flatten = es

section Chains

variable {op : SchedOp} {s₀ s t u : Sched} {es es' : List SchedEvent} {i : TaskIdx}

theorem Moves.refl (op : SchedOp) (s₀ s : Sched) : Moves op s₀ s [] s :=
  ⟨[], .nil, rfl⟩

theorem Moves.single (h : SchedMove op s₀ s es t) : Moves op s₀ s es t :=
  ⟨[es], Run.snoc .nil h, by simp⟩

theorem Moves.trans (h : Moves op s₀ s es t) (h' : Moves op s₀ t es' u) :
    Moves op s₀ s (es ++ es') u := by
  obtain ⟨ls, hrun, rfl⟩ := h
  obtain ⟨ls', hrun', rfl⟩ := h'
  exact ⟨ls ++ ls', hrun.trans hrun', List.flatten_append⟩

theorem SameTask.refl (a : TaskSlot) : SameTask a a := ⟨rfl, rfl, rfl, rfl, rfl⟩

/-- Scalars other than the next identifier belong to no task. -/
theorem Moves.scalars (htasks : t.tasks = s.tasks) (hwaitqs : t.waitqs = s.waitqs)
    (hnext : t.nextTid = s.nextTid) : Moves op s₀ s [] t := by
  have hone : OneSlot s 0 (s.tasks 0) t :=
    ⟨by rw [htasks, Function.update_eq_self], hwaitqs, hnext⟩
  exact .single (.state hone (.refl _) rfl rfl .keep)

/-- Moves that tell nothing, one after the other. -/
theorem moves_foldl {α : Type} {f : Sched → α → Sched} (hf : ∀ s a, Moves op s₀ s [] (f s a))
    (l : List α) (s : Sched) : Moves op s₀ s [] (l.foldl f s) := by
  induction l generalizing s with
  | nil => exact .refl op s₀ s
  | cons a l ih => exact (hf s a).trans (ih (f s a))

end Chains

/-! ## What the operations are made of -/

variable (op : SchedOp) (s₀ : Sched)

theorem detach_tasks (i : TaskIdx) (s : Sched) :
    (schedDetachWaitq i s).tasks =
      Function.update s.tasks i { s.tasks i with waitq := none } := by
  unfold schedDetachWaitq
  cases hq : (s.tasks i).waitq with
  | none =>
    dsimp only
    rw [← hq, Function.update_eq_self]
  | some q => rfl

theorem detach_waitq (i : TaskIdx) (s : Sched) :
    ((schedDetachWaitq i s).tasks i) = { s.tasks i with waitq := none } := by
  rw [detach_tasks, Function.update_self]

/-- A slot whose task has been woken. -/
def TaskSlot.woken (a : TaskSlot) : TaskSlot :=
  { a with waitq := none, state := .runnable, wakeTick := 0, quantumUsed := 0 }

theorem wakeTask_tasks (i : TaskIdx) (s : Sched) :
    (wakeTask i s).tasks = Function.update s.tasks i (s.tasks i).woken := by
  change Function.update (schedDetachWaitq i s).tasks i
    { (schedDetachWaitq i s).tasks i with wakeTick := 0, state := .runnable, quantumUsed := 0 } = _
  rw [detach_waitq, detach_tasks, Function.update_idem]
  rfl

theorem moves_wakeTask {i : TaskIdx} {s : Sched} (hused : (s.tasks i).used = true)
    (hwaits : (s.tasks i).state = .blocked ∨ (s.tasks i).state = .sleeping) :
    Moves op s₀ s [] (wakeTask i s) := by
  have hslot := detach_waitq i s
  refine (Moves.single (.detach i)).trans ?_
  refine .single (.state (i := i) ⟨rfl, rfl, rfl⟩ ⟨rfl, rfl, rfl, rfl, rfl⟩ rfl rfl ?_)
  exact .wake (by rw [hslot]; exact hused) (by rw [hslot]) (by rw [hslot]; exact hwaits)

theorem moves_wakeSlot (i : TaskIdx) (s : Sched) : Moves op s₀ s [] (schedWakeSlot i s) := by
  unfold schedWakeSlot
  split_ifs with hactive hwaits
  · exact .refl op s₀ s
  · exact .refl op s₀ s
  · refine moves_wakeTask op s₀ ?_ ?_
    · by_contra hused
      exact hactive (.inl hused)
    · by_contra hstate
      rw [not_or] at hstate
      exact hwaits hstate

theorem moves_wakeOne (q : WaitqRef) (s : Sched) :
    Moves op s₀ s [] (schedWaitqWakeOne q s) := by
  unfold schedWaitqWakeOne
  split
  · exact .refl op s₀ s
  · exact moves_wakeSlot op s₀ _ s

theorem moves_wakeAll (q : WaitqRef) (s : Sched) :
    Moves op s₀ s [] (schedWaitqWakeAll q s) := by
  refine moves_foldl (fun s i => ?_) taskSlots s
  split_ifs
  · exact moves_wakeSlot op s₀ i s
  · exact .refl op s₀ s

theorem moves_tryWakeSleeper (now : BitVec 32) (s : Sched) (i : TaskIdx) :
    Moves op s₀ s [] (tryWakeSleeper now s i) := by
  unfold tryWakeSleeper
  dsimp only
  by_cases hused : (s.tasks i).used = true
  · rw [if_neg (by simp [hused])]
    split_ifs with hwaits htick
    · exact .refl op s₀ s
    · exact .refl op s₀ s
    · refine moves_wakeTask op s₀ hused ?_
      by_contra hstate
      rw [not_or] at hstate
      exact hwaits hstate.symm
  · rw [if_pos hused]
    exact .refl op s₀ s

theorem moves_tick (s : Sched) : Moves op s₀ s [] (scheduleTick s) := by
  have hticks : Moves op s₀ s [] { s with ticks := s.ticks + 1 } := .scalars rfl rfl rfl
  have hwakes := moves_foldl (moves_tryWakeSleeper op s₀ (s.ticks + 1))
    (List.finRange schedMaxTasks) { s with ticks := s.ticks + 1 }
  refine (hticks.trans hwakes).trans ?_
  unfold scheduleTick schedTryWakeSleepers
  dsimp only
  generalize (List.finRange schedMaxTasks).foldl (tryWakeSleeper (s.ticks + 1)) _ = t
  split_ifs
  · exact .single (.state ⟨rfl, rfl, rfl⟩ ⟨rfl, rfl, rfl, rfl, rfl⟩ rfl rfl .keep)
  · exact .single (.state ⟨rfl, rfl, rfl⟩ ⟨rfl, rfl, rfl, rfl, rfl⟩ rfl rfl .keep)
  · exact .refl op s₀ _

theorem moves_enterTask {i : TaskIdx} {s : Sched} (h : invocable s i = true) :
    Moves op s₀ s [] (enterTask i s) := by
  simp only [invocable, Bool.and_eq_true, decide_eq_true_eq] at h
  exact .single (.state (i := i) ⟨rfl, rfl, rfl⟩ ⟨rfl, rfl, rfl, rfl, rfl⟩ rfl rfl (.enter h.2))

theorem moves_leaveTask (i : TaskIdx) (s : Sched) : Moves op s₀ s [] (leaveTask i s) := by
  unfold leaveTask
  split_ifs with hrunning
  · exact .single (.state (i := i) ⟨rfl, rfl, rfl⟩ ⟨rfl, rfl, rfl, rfl, rfl⟩ rfl rfl
      (.pause hrunning))
  · exact .refl op s₀ s

theorem moves_select (s : Sched) : Moves op s₀ s [] (schedRunEnter s) := by
  have hselect : Moves op s₀ s [] (runSelect s) := by
    unfold runSelect
    split_ifs
    · exact .scalars rfl rfl rfl
    · exact .refl op s₀ s
  refine hselect.trans ?_
  unfold schedRunEnter
  dsimp only
  split_ifs with hinvocable
  · exact moves_enterTask op s₀ hinvocable
  · exact .scalars rfl rfl rfl

theorem moves_pump (s : Sched) : Moves op s₀ s [] (schedPumpEnter s) := by
  unfold schedPumpEnter
  dsimp only
  split_ifs with hinvocable
  · have hcurrent : Moves op s₀ s [] { s with currentIdx := schedPickNextIdx s } :=
      .scalars rfl rfl rfl
    exact hcurrent.trans (moves_enterTask op s₀ hinvocable)
  · exact .refl op s₀ s

theorem moves_setFds (table : FdTable) (s : Sched) : Moves op s₀ s [] (schedSetFds table s) := by
  unfold schedSetFds
  split
  · exact .refl op s₀ s
  · exact .single (.state ⟨rfl, rfl, rfl⟩ ⟨rfl, rfl, rfl, rfl, rfl⟩ rfl rfl .keep)

theorem moves_yield (s : Sched) : Moves op s₀ s [] (schedYield s) := by
  unfold schedYield
  split
  · exact .refl op s₀ s
  · rename_i i _
    refine .single (.state (i := i) ⟨rfl, rfl, rfl⟩ ⟨rfl, rfl, rfl, rfl, rfl⟩ rfl rfl ?_)
    dsimp only
    split_ifs with hrunning
    · exact .pause hrunning
    · exact .keep

variable {op s₀} {s : Sched}

theorem schedCurrentSlot_cases (s : Sched) :
    (s.tasks s.currentIdx).used = false ∧ schedCurrentSlot s = none ∨
      (s.tasks s.currentIdx).used = true ∧ schedCurrentSlot s = some s.currentIdx := by
  unfold schedCurrentSlot
  split_ifs with hused
  · exact .inr ⟨hused, rfl⟩
  · exact .inl ⟨by simpa using hused, rfl⟩

theorem moves_sleepTicks (ticks : BitVec 32) (hself : s.currentIdx = s₀.currentIdx)
    (hrests : op.rests s₀) : Moves op s₀ s [] (schedSleepTicks ticks s) := by
  unfold schedSleepTicks
  obtain ⟨-, hnone⟩ | ⟨hused, hcurrent⟩ := schedCurrentSlot_cases s
  · rw [hnone]
    exact .refl op s₀ s
  · rw [hcurrent]
    dsimp only
    by_cases hidle : (s.tasks s.currentIdx).isIdle = true
    · rw [if_pos hidle]
      exact .refl op s₀ s
    · rw [if_neg hidle]
      exact .single (.state (i := s.currentIdx) ⟨rfl, rfl, rfl⟩ ⟨rfl, rfl, rfl, rfl, rfl⟩ rfl rfl
        (.sleep hself hrests hused (by simpa using hidle)))

theorem moves_waitqSleep {q : WaitqRef} (timeout : BitVec 32)
    (hself : s.currentIdx = s₀.currentIdx) (hrests : op.rests s₀)
    (hown : q = .console ∨ q = .child s.currentIdx) :
    Moves op s₀ s [] (schedWaitqSleep q timeout s) := by
  unfold schedWaitqSleep
  obtain ⟨-, hnone⟩ | ⟨hused, hcurrent⟩ := schedCurrentSlot_cases s
  · rw [hnone]
    exact .refl op s₀ s
  · rw [hcurrent]
    dsimp only
    by_cases hidle : (s.tasks s.currentIdx).isIdle = true
    · rw [if_pos hidle]
      exact .refl op s₀ s
    · rw [if_neg hidle]
      have hslot := detach_waitq s.currentIdx s
      refine (Moves.single (.detach s.currentIdx)).trans ?_
      exact .single (.attach (i := s.currentIdx) ⟨rfl, rfl, rfl⟩ hself hrests
        (by rw [hslot]; exact hused) (by rw [hslot]; simpa using hidle) (by rw [hslot]) hown
        ⟨rfl, rfl, rfl, rfl, rfl⟩ rfl rfl rfl)

theorem mem_taskSlots_iff {i : TaskIdx} : i ∈ taskSlots ↔ i ≠ 0 := by
  revert i
  decide

/-- The table in which the task of slot `i` has exited and its parent sleeps on. -/
def exitTable (code : BitVec 32) (i : TaskIdx) (s : Sched) : Sched :=
  let s := schedDetachWaitq i s
  let slot := s.tasks i
  s.setTask i { slot with fds := slot.fds.closeAllFds, exitCode := code, state := .zombie,
                          wakeTick := 0, quantumUsed := 0 }

/-- The wake-up of the parent, when there is one to be found. -/
def wakeParent (parentTid : BitVec 32) (s : Sched) : Sched :=
  if parentTid.toInt ≥ 0 then
    match schedFindByTid s parentTid with
    | none => s
    | some p => schedWaitqWakeAll (.child p) s
  else s

theorem schedExitCode_eq (code : BitVec 32) {i : TaskIdx} (hcurrent : schedCurrentSlot s = some i)
    (hactive : (s.tasks i).isIdle = false) :
    schedExitCode code s = (wakeParent (s.tasks i).parentTid (exitTable code i s)).resched := by
  have hparent : (s.tasks i).parentTid = ((schedDetachWaitq i s).tasks i).parentTid := by
    rw [detach_waitq]
  unfold schedExitCode
  rw [hcurrent]
  dsimp only
  rw [if_neg (by simp [hactive]), hparent]
  rfl

theorem exitTable_tasks (code : BitVec 32) (i : TaskIdx) (s : Sched) :
    (exitTable code i s).tasks = Function.update s.tasks i { s.tasks i with
      waitq := none, fds := (s.tasks i).fds.closeAllFds, exitCode := code, state := .zombie,
      wakeTick := 0, quantumUsed := 0 } := by
  unfold exitTable Sched.setTask
  dsimp only
  rw [detach_waitq, detach_tasks, Function.update_idem]

theorem exitTable_nextTid (code : BitVec 32) (i : TaskIdx) (s : Sched) :
    (exitTable code i s).nextTid = s.nextTid := by
  change (schedDetachWaitq i s).nextTid = s.nextTid
  unfold schedDetachWaitq
  split <;> rfl

theorem moves_exitTable (code : BitVec 32) (hused : (s.tasks s.currentIdx).used = true)
    (hactive : (s.tasks s.currentIdx).isIdle = false) :
    Moves (.call (.exitCode code)) s s [.exited (s.tasks s.currentIdx).tid]
      (exitTable code s.currentIdx s) := by
  have hslot := detach_waitq s.currentIdx s
  have htid : ((schedDetachWaitq s.currentIdx s).tasks s.currentIdx).tid =
      (s.tasks s.currentIdx).tid := by rw [hslot]
  rw [← htid]
  refine (Moves.single (.detach s.currentIdx)).trans (.single ?_)
  exact .die ⟨rfl, rfl, rfl⟩ rfl rfl (by rw [hslot]; exact hused) (by rw [hslot]; exact hactive)
    (by rw [hslot]) ⟨rfl, rfl, rfl, rfl, rfl⟩ (by rw [hslot]) rfl

theorem moves_wakeParent (op : SchedOp) (s₀ : Sched) (parentTid : BitVec 32) (s : Sched) :
    Moves op s₀ s [] (wakeParent parentTid s) := by
  unfold wakeParent
  split_ifs
  · split
    · exact .refl op s₀ s
    · exact moves_wakeAll op s₀ _ s
  · exact .refl op s₀ s

theorem moves_exitCode (code : BitVec 32) (s : Sched) :
    Moves (.call (.exitCode code)) s s ((SchedOp.call (.exitCode code)).events s)
      (schedExitCode code s) := by
  obtain ⟨-, hnone⟩ | ⟨hused, hcurrent⟩ := schedCurrentSlot_cases s
  · unfold schedExitCode SchedOp.events
    rw [hnone]
    exact .refl _ s s
  by_cases hidle : (s.tasks s.currentIdx).isIdle = true
  · unfold schedExitCode SchedOp.events
    rw [hcurrent]
    dsimp only
    rw [if_pos hidle, if_pos hidle]
    exact .refl _ s s
  · have hactive : (s.tasks s.currentIdx).isIdle = false := by simpa using hidle
    have hevents : (SchedOp.call (.exitCode code)).events s =
        [.exited (s.tasks s.currentIdx).tid] ++ ([] ++ []) := by
      unfold SchedOp.events
      rw [hcurrent]
      exact if_neg hidle
    rw [schedExitCode_eq code hcurrent hactive, hevents]
    exact (moves_exitTable code hused hactive).trans
      ((moves_wakeParent _ s _ _).trans (.scalars rfl rfl rfl))

theorem schedAllocSlot_eq_some {i : TaskIdx} (h : schedAllocSlot s = some i) :
    i ≠ 0 ∧ (s.tasks i).used = false := by
  have hfree := List.find?_some h
  exact ⟨mem_taskSlots_iff.mp (List.mem_of_find?_eq_some h), by simpa using hfree⟩

theorem moves_spawn (entry : Option ℕ) (s : Sched) :
    Moves (.call (.spawn entry)) s s ((SchedOp.call (.spawn entry)).events s)
      (schedSpawn entry s).2 := by
  unfold schedSpawn SchedOp.events
  cases entry with
  | none => exact .refl _ s s
  | some e =>
    cases halloc : schedAllocSlot s with
    | none => exact .refl _ s s
    | some i =>
      obtain ⟨hslot, hunused⟩ := schedAllocSlot_eq_some halloc
      dsimp only
      rw [if_pos ⟨rfl, rfl⟩]
      refine .single (.spawn (i := i) ⟨Function.update_idem _ _ _, rfl, rfl⟩ ⟨_, rfl⟩ hslot
        hunused rfl rfl rfl rfl rfl ?_)
      dsimp only
      generalize hmarked : s.setTask i { s.tasks i with used := true } = marked
      obtain ⟨-, hnone⟩ | ⟨-, hcurrent⟩ := schedCurrentSlot_cases marked
      · rw [hnone]
        exact .inl rfl
      · rw [hcurrent]
        right
        subst hmarked
        change (Function.update s.tasks i _ s.currentIdx).tid = _
        rw [Function.update_apply]
        split_ifs with hi
        · rw [hi]
        · rfl

theorem active_of_isChildOf {slot : TaskSlot} {parentTid pid : BitVec 32}
    (h : schedTaskIsChildOf slot parentTid pid = true) : slot.isIdle = false := by
  simp only [schedTaskIsChildOf, Bool.and_eq_true, Bool.not_eq_true'] at h
  exact h.1.1.2

theorem parentTid_of_isChildOf {slot : TaskSlot} {parentTid pid : BitVec 32}
    (h : schedTaskIsChildOf slot parentTid pid = true) : slot.parentTid = parentTid := by
  simp only [schedTaskIsChildOf, Bool.and_eq_true, decide_eq_true_eq] at h
  exact h.1.2

theorem moves_waitpid (pid options : BitVec 32) (s : Sched) :
    Moves (.call (.waitpid pid options)) s s ((SchedOp.call (.waitpid pid options)).events s)
      (schedWaitpid pid options s).2.2 := by
  unfold SchedOp.events schedWaitpid
  obtain ⟨-, hnone⟩ | ⟨hused, hcurrent⟩ := schedCurrentSlot_cases s
  · rw [hnone]
    exact .refl _ s s
  rw [hcurrent]
  dsimp only
  by_cases hidle : (s.tasks s.currentIdx).isIdle = true
  · rw [if_pos hidle]
    exact .refl _ s s
  rw [if_neg hidle]
  obtain ⟨j, status, hdead, hreap⟩ | ⟨rc, hrc, hreap⟩ :=
    schedTryReapChild_cases (s.tasks s.currentIdx).tid pid s
  · have hmove : Moves (.call (.waitpid pid options)) s s (reapEvents (s.tasks j).tid.toInt)
        (schedClearTask j s) :=
      .single (.reap j ⟨pid, options, rfl⟩ (used_of_isChildOf hdead.1)
        (active_of_isChildOf hdead.1) hdead.2 hused (by simpa using hidle)
        (parentTid_of_isChildOf hdead.1))
    rw [hreap]
    dsimp only
    by_cases hzero : (s.tasks j).tid.toInt = 0
    · have hnone : reapEvents (s.tasks j).tid.toInt = [] := by rw [hzero]; rfl
      rw [hnone] at hmove
      rw [if_neg (not_not.mpr hzero)]
      split_ifs with hopt
      · exact hmove
      · refine hmove.trans (moves_waitqSleep 0 rfl ⟨not_not.mp hopt, ?_⟩ (.inr rfl))
        rw [hreap]
        exact hzero
    · rw [if_pos hzero]
      exact hmove
  · have hnone : ∀ n ≤ 0, reapEvents n = [] := fun n hn => if_neg (not_lt.mpr hn)
    rw [hreap]
    dsimp only
    split_ifs with hzero hopt
    · rw [hnone rc hrc]
      exact .refl _ s s
    · exact .refl _ s s
    · refine moves_waitqSleep 0 rfl ⟨not_not.mp hopt, ?_⟩ (.inr rfl)
      rw [hreap]
      exact not_not.mp hzero

/-- Every operation is a chain of moves. -/
theorem SchedOp.moves {op : SchedOp} (h : op.ownQueue s) :
    Moves op s s (op.events s) (op.run s) := by
  cases op with
  | call c =>
    cases c with
    | yield => exact moves_yield _ s s
    | sleepTicks ticks => exact moves_sleepTicks ticks rfl trivial
    | waitqSleep q timeout => exact moves_waitqSleep timeout rfl trivial h
    | wakeOne q => exact moves_wakeOne _ s q s
    | wakeAll q => exact moves_wakeAll _ s q s
    | spawn entry => exact moves_spawn entry s
    | exitCode code => exact moves_exitCode code s
    | waitpid pid options => exact moves_waitpid pid options s
  | fds table => exact moves_setFds _ s table s
  | tick => exact moves_tick _ s s
  | select => exact moves_select _ s s
  | pump => exact moves_pump _ s s
  | leave i prev => exact (moves_leaveTask _ s i s).trans (.scalars rfl rfl rfl)

/-- The invariant rule of the scheduler: what every move keeps, every operation keeps. -/
theorem SchedOp.keeps {P : Sched → List SchedEvent → Prop}
    (hmove : ∀ op s₀ s log es t, P s log → SchedMove op s₀ s es t → P t (log ++ es))
    (log : List SchedEvent) {op : SchedOp} (h : P s log) (hown : op.ownQueue s) :
    P (op.run s) (log ++ op.events s) := by
  obtain ⟨ls, hrun, hes⟩ := op.moves hown
  rw [← hes]
  clear hes
  generalize op.run s = t at hrun ⊢
  induction hrun with
  | nil => simpa using h
  | snoc _ hs ih =>
    have hnext := hmove op s _ _ _ _ ih hs
    simpa using hnext

theorem reachable_of_moves {P : Sched → Prop} (hinit : P schedInit)
    (hmove : ∀ op s₀ s es t, P s → SchedMove op s₀ s es t → P t) (h : Reachable schedOps s) :
    P s := by
  refine h.invariant ?_ ?_
  · rintro _ rfl
    exact hinit
  · rintro s op _ hP ⟨hown, rfl⟩
    exact SchedOp.keeps (P := fun s _ => P s)
      (fun op s₀ s _ es t hP hstep => hmove op s₀ s es t hP hstep) [] hP hown

end LampVm
