import LampVm.Reaping

/-!
# Task identifiers over long runs

`sched_spawn` takes identifiers from a counter of 32 bits, which skips only zero, and returns
them as `int`. Over a whole run they are positive and no two tasks of the table share one
exactly if fewer than 2 ^ 31 tasks are spawned. The scheduler can spawn that many: a task
that spawns a child and reaps it comes back to the state it was in, with the next
identifier.
-/
namespace LampVm

open Transition

/-- The identifiers of the slots in use are distinct, and only the idle task's is zero. -/
structure TidsSound (s : Sched) : Prop where
  distinct : ∀ i j, (s.tasks i).used = true → (s.tasks j).used = true →
    (s.tasks i).tid = (s.tasks j).tid → i = j
  zero : ∀ i, (s.tasks i).used = true → ((s.tasks i).tid = 0 ↔ i = 0)

/-- A call of `sched_spawn` that makes a task returns a positive number. -/
def SpawnSound (s : Sched) (op : SchedOp) : Prop :=
  ∀ entry, op = .call (.spawn entry) → entry.isSome ∧ (schedAllocSlot s).isSome →
    0 < (schedSpawn entry s).1

/-- The state after a list of operations. -/
def schedAfter (ops : List SchedOp) : Sched := ops.foldl (fun s op => op.run s) schedInit

/-- Both hold all along the run. -/
structure RunSound (ops : List SchedOp) : Prop where
  tables : ∀ ops', ops' <+: ops → TidsSound (schedAfter ops')
  spawns : ∀ ops' op, ops' ++ [op] <+: ops → SpawnSound (schedAfter ops') op

variable {s t : Sched} {ops : List SchedOp} {op : SchedOp} {log : SchedLog}

theorem schedAfter_concat (ops : List SchedOp) (op : SchedOp) :
    schedAfter (ops ++ [op]) = op.run (schedAfter ops) := by
  rw [schedAfter, List.foldl_append]
  rfl

theorem runSound_concat (ops : List SchedOp) (op : SchedOp) :
    RunSound (ops ++ [op]) ↔
      RunSound ops ∧ SpawnSound (schedAfter ops) op ∧ TidsSound (op.run (schedAfter ops)) := by
  rw [← schedAfter_concat]
  constructor
  · rintro ⟨htables, hspawns⟩
    refine ⟨⟨fun ops' h => ?_, fun ops' op' h => ?_⟩, ?_, ?_⟩
    · exact htables ops' (h.trans (List.prefix_append _ _))
    · exact hspawns ops' op' (h.trans (List.prefix_append _ _))
    · exact hspawns ops op (List.prefix_refl _)
    · exact htables _ (List.prefix_refl _)
  · rintro ⟨⟨htables, hspawns⟩, hspawn, htable⟩
    constructor
    · intro ops' h
      obtain rfl | h := List.prefix_concat_iff.mp h
      · exact htable
      · exact htables ops' h
    · intro ops' op' h
      obtain heq | h := List.prefix_concat_iff.mp h
      · obtain ⟨rfl, hop⟩ := List.append_inj' heq rfl
        obtain rfl := List.singleton_inj.mp hop
        exact hspawn
      · exact hspawns ops' op' h

/-! ## Runs with few spawns -/

theorem tidsSound_of_inv (htask : TaskInv s) (htid : TidInv s log) : TidsSound s := by
  have hlive : ∀ i, (s.tasks i).used = true → i ≠ 0 → s.live i := by
    intro i hused hi
    refine ⟨hused, ?_⟩
    rw [Bool.eq_false_iff]
    exact fun hidle => hi ((htask.idle i).mp hidle)
  have hzero : (s.tasks 0).tid = 0 := htask.zero 0 (.inr ((htask.idle 0).mpr rfl))
  have hne : ∀ i, (s.tasks i).used = true → i ≠ 0 → (s.tasks i).tid ≠ 0 := by
    intro i hused hi
    obtain ⟨-, hactive⟩ := hlive i hused hi
    exact htask.tid i hused hactive
  constructor
  · intro i j hi hj heq
    by_cases hi0 : i = 0
    · by_contra hij
      rw [hi0, hzero] at heq
      exact hne j hj (fun hj0 => hij (hi0.trans hj0.symm)) heq.symm
    · by_cases hj0 : j = 0
      · rw [hj0, hzero] at heq
        exact absurd heq (hne i hi hi0)
      · exact htid.unique i j (hlive i hi hi0) (hlive j hj hj0) heq
  · intro i hi
    constructor
    · intro h0
      by_contra hi0
      exact hne i hi hi0 h0
    · rintro rfl
      exact hzero

theorem spawnedTids_reapEvents (rc : ℤ) : spawnedTids (reapEvents rc) = [] := by
  unfold reapEvents
  split_ifs <;> rfl

/-- An operation spawns one task, or none. -/
theorem spawnedTids_events (op : SchedOp) (s : Sched) :
    (∃ entry, op = .call (.spawn entry) ∧ (entry.isSome ∧ (schedAllocSlot s).isSome) ∧
      spawnedTids (op.events s) = [s.nextTid] ∧ (schedSpawn entry s).1 = s.nextTid.toInt) ∨
    (spawnedTids (op.events s) = [] ∧ SpawnSound s op) := by
  have hvacuous : (∀ entry, op ≠ .call (.spawn entry)) → SpawnSound s op :=
    fun hne entry heq => absurd heq (hne entry)
  cases op with
  | call c =>
    cases c with
    | spawn entry =>
      by_cases hmakes : entry.isSome ∧ (schedAllocSlot s).isSome
      · refine .inl ⟨entry, rfl, hmakes, ?_, ?_⟩
        · rw [SchedOp.events, if_pos hmakes]
          rfl
        · obtain ⟨e, rfl⟩ := Option.isSome_iff_exists.mp hmakes.1
          obtain ⟨i, hi⟩ := Option.isSome_iff_exists.mp hmakes.2
          simp only [schedSpawn, hi]
          rfl
      · refine .inr ⟨?_, ?_⟩
        · rw [SchedOp.events, if_neg hmakes]
          rfl
        · intro entry' heq hmakes'
          cases heq
          exact absurd hmakes' hmakes
    | waitpid pid options => exact .inr ⟨spawnedTids_reapEvents _, hvacuous (by simp)⟩
    | exitCode code =>
      refine .inr ⟨?_, hvacuous (by simp)⟩
      unfold SchedOp.events
      dsimp only
      split
      · rfl
      · split_ifs <;> rfl
    | _ => exact .inr ⟨rfl, hvacuous (by simp)⟩
  | _ => exact .inr ⟨rfl, hvacuous (by simp)⟩

theorem schedAfter_of_run {r : Sched × SchedLog} (h : Run schedRuns (schedInit, []) ops r) :
    r.1 = schedAfter ops := by
  induction h with
  | nil => rfl
  | snoc _ hstep ih => rw [schedAfter_concat, ← ih, hstep.1.2]

/-- A state that a run with few spawns has come to. -/
theorem tidsSound_of_run {r : Sched × SchedLog} (h : Run schedRuns (schedInit, []) ops r)
    (hbound : (spawnedTids r.2).length < 2 ^ 31) : TidsSound r.1 := by
  have hreach : Reachable schedRuns r := ⟨(schedInit, []), ops, ⟨rfl, rfl⟩, h⟩
  exact tidsSound_of_inv (reachable_taskInv (reachable_schedOps hreach))
    (reachable_tidInv hreach hbound)

/-- The next spawn is sound exactly if there is room for it below 2 ^ 31. -/
theorem toInt_pos_iff (h : s.nextTid.toNat = (spawnedTids log).length + 1) :
    0 < s.nextTid.toInt ↔ (spawnedTids log).length + 1 < 2 ^ 31 := by
  have hlt := s.nextTid.isLt
  rw [BitVec.toInt_eq_toNat_cond]
  split_ifs <;> omega

/-- Along every run the identifiers are distinct and positive exactly if fewer than 2 ^ 31
tasks are spawned. -/
theorem tids_sound_iff (h : Run schedRuns (schedInit, []) ops (s, log)) :
    RunSound ops ↔ (spawnedTids log).length < 2 ^ 31 := by
  suffices hall : ∀ r, Run schedRuns (schedInit, []) ops r →
      (RunSound ops ↔ (spawnedTids r.2).length < 2 ^ 31) from hall (s, log) h
  clear h
  intro r h
  induction h with
  | nil =>
    refine ⟨fun _ => by decide, fun _ => ⟨fun ops' hp => ?_, fun ops' op hp => ?_⟩⟩
    · rw [List.prefix_nil.mp hp]
      exact tidsSound_of_inv taskInv_init tidInv_init
    · exact absurd (List.prefix_nil.mp hp) (by simp)
  | @snoc ops op r r' hrun hstep ih =>
    obtain ⟨⟨hown, hnext⟩, hlog⟩ := hstep
    have hafter := schedAfter_of_run hrun
    have htable := tidsSound_of_run (hrun.snoc ⟨⟨hown, hnext⟩, hlog⟩)
    have hreach : Reachable schedRuns r := ⟨(schedInit, []), ops, ⟨rfl, rfl⟩, hrun⟩
    rw [runSound_concat, ih, ← hafter, ← hnext]
    rw [hlog, spawnedTids_append, List.length_append] at htable ⊢
    obtain ⟨entry, rfl, hmakes, hspawned, hrc⟩ | ⟨hnone, hsound⟩ := spawnedTids_events op r.1
    · rw [hspawned, List.length_singleton] at htable ⊢
      constructor
      · rintro ⟨hbound, hspawn, -⟩
        have hpos := hspawn entry rfl hmakes
        rw [hrc] at hpos
        exact (toInt_pos_iff (reachable_tidInv hreach hbound).next).mp hpos
      · intro hbound
        have hbefore : (spawnedTids r.2).length < 2 ^ 31 := by omega
        refine ⟨hbefore, fun entry' heq _ => ?_, htable hbound⟩
        cases heq
        rw [hrc]
        exact (toInt_pos_iff (reachable_tidInv hreach hbefore).next).mpr hbound
    · rw [hnone, List.length_nil, Nat.add_zero] at htable ⊢
      exact ⟨fun hand => hand.1, fun hbound => ⟨hbound, hsound, htable hbound⟩⟩

/-! ## A run with many spawns -/

section Family

variable {b : Bool} {n m : BitVec 32} {child : TaskSlot} {current : TaskIdx}

/-- The identifier after `n`. -/
def tidAfter (n : BitVec 32) : BitVec 32 := if n + 1 = 0 then 1 else n + 1

def spawnerTask : TaskSlot where
  tid := 1
  state := .running
  wakeTick := 0
  runTicks := 1
  used := true
  isIdle := false
  quantumUsed := 0
  parentTid := 0
  exitCode := 0
  entry := some 1
  waitq := none
  fds := .initStdio

/-- The first task runs, and there is no other. -/
def spawnerState (b : Bool) (n : BitVec 32) : Sched :=
  { schedInit with
    needResched := b
    tasks := Function.update schedInit.tasks 1 spawnerTask
    currentIdx := 1
    nextTid := n }

def spawnedTask (n : BitVec 32) : TaskSlot where
  tid := n
  state := .runnable
  wakeTick := 0
  runTicks := 0
  used := true
  isIdle := false
  quantumUsed := 0
  parentTid := 1
  exitCode := 0
  entry := some 2
  waitq := none
  fds := .initStdio

/-- It has spawned a child. -/
def withChild (n : BitVec 32) (child : TaskSlot) (current : TaskIdx) : Sched :=
  { spawnerState true n with
    tasks := Function.update (spawnerState true n).tasks 2 child
    currentIdx := current }

@[simp] theorem withChild_child : (withChild n child current).tasks 2 = child := by
  simp [withChild]

@[simp] theorem withChild_setTask (a : TaskSlot) :
    (withChild n child current).setTask 2 a = withChild n a current := by
  simp [withChild, Sched.setTask]

theorem waitqInit_of_empty {s : Sched} (h : s.waitqs = fun _ _ => false) (q : WaitqRef) :
    schedWaitqInit q s = s := by
  rw [schedWaitqInit, h, Function.update_eq_self_iff.mpr rfl, ← h]

theorem wakeParent_of_empty {s : Sched} (h : s.waitqs = fun _ _ => false) (tid : BitVec 32) :
    wakeParent tid s = s := by
  have hnone : ∀ q, schedWaitqWakeAll q s = s := by
    intro q
    unfold schedWaitqWakeAll
    induction taskSlots with
    | nil => rfl
    | cons i rest ih => rw [List.foldl_cons, if_neg (by simp [h]), ih]
  unfold wakeParent
  split_ifs
  · split
    · rfl
    · exact hnone _
  · rfl

theorem spawner_spawns : (SchedOp.call (.spawn (some 2))).run (spawnerState b n) =
    withChild (tidAfter n) (spawnedTask n) 1 := by
  have halloc : schedAllocSlot (spawnerState b n) = some 2 := rfl
  simp only [SchedOp.run, SchedCall.run, schedSpawn, halloc]
  rw [waitqInit_of_empty rfl]
  simp only [Sched.setTask, Sched.resched, withChild, Function.update_idem]
  rfl

theorem child_starts : SchedOp.pump.run (withChild n (spawnedTask m) 1) =
    withChild n { spawnedTask m with state := .running, runTicks := 1 } 2 := by
  have hpick : schedPickNextIdx (withChild n (spawnedTask m) 1) = 2 := rfl
  have hinvoke : invocable (withChild n (spawnedTask m) 1) 2 = true := rfl
  unfold SchedOp.run schedPumpEnter
  dsimp only
  rw [hpick, if_pos hinvoke]
  exact withChild_setTask _

theorem child_exits (hused : child.used = true) (hactive : child.isIdle = false)
    (hfree : child.waitq = none) :
    (SchedOp.call (.exitCode 0)).run (withChild n child 2) =
      withChild n { child with fds := child.fds.closeAllFds, exitCode := 0, state := .zombie,
                               wakeTick := 0, quantumUsed := 0 } 2 := by
  have hslot : (withChild n child 2).tasks 2 = child := withChild_child
  have hcurrent : schedCurrentSlot (withChild n child 2) = some 2 := by
    unfold schedCurrentSlot
    change (if ((withChild n child 2).tasks 2).used = true then some 2 else none) = some 2
    rw [hslot, if_pos hused]
  have hdetach : schedDetachWaitq 2 (withChild n child 2) = withChild n child 2 := by
    unfold schedDetachWaitq
    rw [hslot, hfree]
  have hexit : exitTable 0 2 (withChild n child 2) = withChild n { child with
      fds := child.fds.closeAllFds, exitCode := 0, state := .zombie, wakeTick := 0,
      quantumUsed := 0 } 2 := by
    unfold exitTable
    rw [hdetach]
    dsimp only
    rw [hslot]
    exact withChild_setTask _
  have hrun := schedExitCode_eq 0 hcurrent (by rw [hslot]; exact hactive)
  rw [hexit, wakeParent_of_empty rfl] at hrun
  exact hrun

theorem child_returns (hdead : child.state = .zombie) :
    (SchedOp.leave 2 (some 1)).run (withChild n child 2) = withChild n child 1 := by
  have hslot : (withChild n child 2).tasks 2 = child := withChild_child
  have hleave : leaveTask 2 (withChild n child 2) = withChild n child 2 := by
    unfold leaveTask
    rw [hslot, hdead, if_neg (by decide)]
  unfold SchedOp.run
  dsimp only
  rw [hleave]
  rfl

/-- The child of slot 2, when it has exited. -/
def doneTask (n : BitVec 32) : TaskSlot :=
  { spawnedTask n with runTicks := 1, state := .zombie, fds := FdTable.initStdio.closeAllFds }

theorem clear_child : schedClearTask 2 (withChild n child 1) = spawnerState true n := by
  have hzero : (spawnerState true n).tasks 2 = .zero := rfl
  unfold schedClearTask
  rw [withChild_setTask, waitqInit_of_empty rfl]
  simp only [withChild, ← hzero, Function.update_eq_self]
  rfl

theorem child_reaped (hm : m ≠ 0) :
    (SchedOp.call (.waitpid (-1) 0)).run (withChild n (doneTask m) 1) = spawnerState true n := by
  have hcurrent : schedCurrentSlot (withChild n (doneTask m) 1) = some 1 := rfl
  have hspawner : (withChild n (doneTask m) 1).tasks 1 = spawnerTask := rfl
  have hfind : taskSlots.find? (fun i =>
      schedTaskIsChildOf ((withChild n (doneTask m) 1).tasks i) 1 (-1) &&
        ((withChild n (doneTask m) 1).tasks i).state = .zombie) = some 2 := rfl
  have hreap : ∃ status, schedTryReapChild 1 (-1) (withChild n (doneTask m) 1) =
      (m.toInt, status, spawnerState true n) := by
    refine ⟨some (((doneTask m).exitCode &&& 0xFF) <<< 8), ?_⟩
    unfold schedTryReapChild
    dsimp only
    rw [hfind]
    dsimp only
    rw [clear_child, withChild_child]
    rfl
  obtain ⟨status, hreap⟩ := hreap
  have hne : m.toInt ≠ 0 := fun h0 => hm (BitVec.eq_of_toInt_eq h0)
  change (schedWaitpid (-1) 0 (withChild n (doneTask m) 1)).2.2 = _
  unfold schedWaitpid
  rw [hcurrent]
  dsimp only
  rw [hspawner, if_neg (by decide), show spawnerTask.tid = 1 from rfl, hreap]
  dsimp only
  rw [if_pos hne]

/-- A child's whole life. -/
def family : List SchedOp :=
  [.call (.spawn (some 2)), .pump, .call (.exitCode 0), .leave 2 (some 1),
    .call (.waitpid (-1) 0)]

theorem family_run (hn : n ≠ 0) : family.foldl (fun s op => op.run s) (spawnerState b n) =
    spawnerState true (tidAfter n) := by
  simp only [family, List.foldl_cons, List.foldl_nil, spawner_spawns, child_starts]
  rw [child_exits rfl rfl rfl, child_returns rfl]
  exact child_reaped hn

/-- The first task is spawned, and has `k` children one after the other. -/
def familyRun (k : ℕ) : List SchedOp :=
  [.call (.spawn (some 1)), .select] ++ (List.replicate k family).flatten

/-- The first task before it is selected. -/
def firstSpawned : Sched :=
  { schedInit with
    needResched := true
    tasks := Function.update schedInit.tasks 1 { spawnerTask with state := .runnable, runTicks := 0 }
    nextTid := 2 }

theorem init_spawns : (SchedOp.call (.spawn (some 1))).run schedInit = firstSpawned := by
  have halloc : schedAllocSlot schedInit = some 1 := rfl
  simp only [SchedOp.run, SchedCall.run, schedSpawn, halloc]
  rw [waitqInit_of_empty rfl]
  simp only [Sched.setTask, Sched.resched, Function.update_idem]
  rfl

theorem first_selected : SchedOp.select.run firstSpawned = spawnerState false 2 := by
  have hpick : schedPickNextIdx firstSpawned = 1 := rfl
  have hselect : runSelect firstSpawned =
      { firstSpawned with needResched := false, currentIdx := 1 } := by
    rw [runSelect, if_pos (.inl rfl), hpick]
  have hinvoke : invocable { firstSpawned with needResched := false, currentIdx := 1 } 1 = true :=
    rfl
  change schedRunEnter firstSpawned = _
  rw [schedRunEnter, hselect]
  dsimp only
  rw [if_pos hinvoke, enterTask, Sched.setTask]
  simp only [firstSpawned, Function.update_idem, Function.update_self]
  rfl

theorem familyRun_zero : schedAfter (familyRun 0) = spawnerState false 2 := by
  simp only [familyRun, List.replicate_zero, List.flatten_nil, List.append_nil, schedAfter,
    List.foldl_cons, List.foldl_nil, init_spawns, first_selected]

theorem schedAfter_familyRun_succ (k : ℕ) : schedAfter (familyRun (k + 1)) =
    family.foldl (fun s op => op.run s) (schedAfter (familyRun k)) := by
  rw [familyRun, List.replicate_succ', List.flatten_append, ← List.append_assoc]
  simp only [List.flatten_cons, List.flatten_nil, List.append_nil, schedAfter, List.foldl_append,
    familyRun]

/-- Until the counter wraps around, each child takes the next number. -/
theorem schedAfter_familyRun {k : ℕ} (hk : k + 2 < 2 ^ 32) :
    ∃ b, schedAfter (familyRun k) = spawnerState b (BitVec.ofNat 32 (k + 2)) := by
  induction k with
  | zero => exact ⟨false, familyRun_zero⟩
  | succ k ih =>
    obtain ⟨b, hb⟩ := ih (by omega)
    have hn : BitVec.ofNat 32 (k + 2) ≠ 0 := BitVec.toNat_ne_iff_ne.mp (by
      rw [BitVec.toNat_ofNat, Nat.mod_eq_of_lt (by omega)]
      exact Nat.succ_ne_zero _)
    have hplus : BitVec.ofNat 32 (k + 2) + 1 = BitVec.ofNat 32 (k + 1 + 2) :=
      (BitVec.ofNat_add _ _).symm
    have hnext : tidAfter (BitVec.ofNat 32 (k + 2)) = BitVec.ofNat 32 (k + 1 + 2) := by
      rw [tidAfter, hplus, if_neg]
      refine BitVec.toNat_ne_iff_ne.mp ?_
      rw [BitVec.toNat_ofNat, Nat.mod_eq_of_lt hk]
      exact Nat.succ_ne_zero _
    refine ⟨true, ?_⟩
    rw [schedAfter_familyRun_succ, hb, family_run hn, hnext]

/-- After the last number comes the first one again. -/
theorem schedAfter_familyRun_wrap {k : ℕ} (hk : k + 3 = 2 ^ 32) :
    schedAfter (familyRun (k + 1)) = spawnerState true 1 := by
  obtain ⟨b, hb⟩ := schedAfter_familyRun (k := k) (by omega)
  have hlast : BitVec.ofNat 32 (k + 2) = -1 := by
    rw [show k + 2 = 2 ^ 32 - 1 by omega]
    decide
  rw [schedAfter_familyRun_succ, hb, hlast, family_run (by decide)]
  rfl

theorem run_schedAfter (h : ∀ op ∈ ops, ∀ s : Sched, op.ownQueue s) :
    Run schedOps schedInit ops (schedAfter ops) := by
  induction ops using List.reverseRecOn with
  | nil => exact .nil
  | append_singleton ops op ih =>
    have hrun := ih fun op' hop' => h op' (List.mem_append_left _ hop')
    rw [schedAfter_concat]
    exact hrun.snoc ⟨h op (List.mem_append_right _ (List.mem_singleton_self op)) _, rfl⟩

theorem ownQueue_familyRun (k : ℕ) : ∀ op ∈ familyRun k, ∀ s : Sched, op.ownQueue s := by
  intro op hop s
  have hop' : op ∈ [.call (.spawn (some 1)), .select] ∨ op ∈ family := by
    obtain hstart | hchild := List.mem_append.mp hop
    · exact .inl hstart
    · obtain ⟨ops, hops, hmem⟩ := List.mem_flatten.mp hchild
      rw [List.eq_of_mem_replicate hops] at hmem
      exact .inr hmem
  simp only [family, List.mem_cons, List.not_mem_nil, or_false] at hop'
  obtain (rfl | rfl) | rfl | rfl | rfl | rfl | rfl := hop' <;> trivial

theorem spawn_negative {k : ℕ} (hk : k + 2 = 2 ^ 31) :
    (schedSpawn (some 2) (schedAfter (familyRun k))).1 = -2 ^ 31 := by
  obtain ⟨b, hb⟩ := schedAfter_familyRun (k := k) (by omega)
  have halloc : schedAllocSlot (spawnerState b (BitVec.ofNat 32 (k + 2))) = some 2 := rfl
  rw [hb]
  simp only [schedSpawn, halloc]
  change (BitVec.ofNat 32 (k + 2)).toInt = _
  rw [hk]
  decide

theorem tid_repeated {k : ℕ} (hk : k + 2 = 2 ^ 32) :
    ¬ TidsSound (schedAfter (familyRun k ++ [.call (.spawn (some 2))])) := by
  obtain ⟨j, rfl⟩ : ∃ j, k = j + 1 := ⟨k - 1, by omega⟩
  rw [schedAfter_concat, schedAfter_familyRun_wrap (by omega), spawner_spawns]
  intro h
  have heq : (1 : TaskIdx) = 2 := h.distinct 1 2 rfl rfl rfl
  exact absurd heq (by decide)

end Family

/-- The run after which 2 ^ 31 - 1 tasks have been spawned. -/
def halfRun : List SchedOp := familyRun (2 ^ 31 - 2)

/-- The run that spawns 2 ^ 32 tasks. -/
def fullRun : List SchedOp := familyRun (2 ^ 32 - 2) ++ [.call (.spawn (some 2))]

/-- The next task after the first run gets a negative number, and the last task of the second
one gets the number of the first task, which is still there. -/
theorem tids_wrap_around :
    (Run schedOps schedInit halfRun (schedAfter halfRun) ∧
      (schedSpawn (some 2) (schedAfter halfRun)).1 = -2 ^ 31) ∧
    Run schedOps schedInit fullRun (schedAfter fullRun) ∧ ¬ TidsSound (schedAfter fullRun) := by
  refine ⟨⟨run_schedAfter (ownQueue_familyRun _), spawn_negative (by norm_num)⟩,
    run_schedAfter ?_, tid_repeated (by norm_num)⟩
  intro op hop s
  obtain hop | hop := List.mem_append.mp hop
  · exact ownQueue_familyRun _ op hop s
  · rw [List.mem_singleton.mp hop]
    trivial

/-- The first task spawns a second one. -/
theorem tids_sound_two_tasks :
    RunSound [.call (.spawn (some 1)), .select, .call (.spawn (some 2))] := by
  have hfirst : Run schedRuns (schedInit, []) [.call (.spawn (some 1))]
      (firstSpawned, [.spawned 1]) := Run.snoc .nil ⟨⟨trivial, init_spawns.symm⟩, rfl⟩
  have hselect : Run schedRuns (schedInit, []) [.call (.spawn (some 1)), .select]
      (spawnerState false 2, [.spawned 1]) := hfirst.snoc ⟨⟨trivial, first_selected.symm⟩, rfl⟩
  have hsecond : Run schedRuns (schedInit, [])
      [.call (.spawn (some 1)), .select, .call (.spawn (some 2))]
      (withChild (tidAfter 2) (spawnedTask 2) 1, [.spawned 1, .spawned 2]) :=
    hselect.snoc ⟨⟨trivial, spawner_spawns.symm⟩, rfl⟩
  exact (tids_sound_iff hsecond).mpr (by decide)

end LampVm
