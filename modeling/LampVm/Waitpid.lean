import LampVm.Slotwise
import LampVm.Syscall

/-!
# Waiting for a child that has not exited

The loop of `SYS_WAITPID` blocks the caller and tries again without letting another
task run. Interrupts can wake tasks but end none, so a child that is alive at the
call stays alive: the call cannot return it, and with no dead child it never returns.
-/
namespace LampVm

open ByteOrder

/-! ## What waking and sleeping keep -/

/-- The same task in the same slot, which has not exited meanwhile. -/
structure SlotKept (a b : TaskSlot) : Prop where
  tid : b.tid = a.tid
  used : b.used = a.used
  isIdle : b.isIdle = a.isIdle
  parentTid : b.parentTid = a.parentTid
  zombie : b.state = .zombie → a.state = .zombie

theorem SlotKept.refl (a : TaskSlot) : SlotKept a a := ⟨rfl, rfl, rfl, rfl, id⟩

theorem SlotKept.trans {a b c : TaskSlot} (h : SlotKept a b) (h' : SlotKept b c) :
    SlotKept a c :=
  ⟨h'.tid.trans h.tid, h'.used.trans h.used, h'.isIdle.trans h.isIdle,
    h'.parentTid.trans h.parentTid, h.zombie ∘ h'.zombie⟩

structure TasksKept (s t : Sched) : Prop where
  current : t.currentIdx = s.currentIdx
  slot : ∀ k, SlotKept (s.tasks k) (t.tasks k)

variable {s t : Sched} {i p : TaskIdx} {pid : BitVec 32}

theorem TasksKept.refl (s : Sched) : TasksKept s s := ⟨rfl, fun k => .refl (s.tasks k)⟩

theorem TasksKept.trans {u : Sched} (h : TasksKept s t) (h' : TasksKept t u) : TasksKept s u :=
  ⟨h'.current.trans h.current, fun k => (h.slot k).trans (h'.slot k)⟩

theorem tasksKept_iff : TasksKept s t ↔ Slotwise (fun _ => SlotKept) s t :=
  ⟨fun h => ⟨h.current, h.slot⟩, fun h => ⟨h.current, h.slot⟩⟩

theorem wakeRel_slotKept : WakeRel fun _ => SlotKept where
  refl _ a := .refl a
  trans h h' := h.trans h'
  detach _ _ := ⟨rfl, rfl, rfl, rfl, id⟩
  wake _ _ := ⟨rfl, rfl, rfl, rfl, nofun⟩

/-- An operation that changes one slot. -/
theorem TasksKept.of_update {slot : TaskSlot} (hcurrent : t.currentIdx = s.currentIdx)
    (htasks : t.tasks = Function.update s.tasks i slot) (h : SlotKept (s.tasks i) slot) :
    TasksKept s t :=
  tasksKept_iff.mpr (.of_update wakeRel_slotKept hcurrent htasks h)

theorem tasksKept_detach (i : TaskIdx) (s : Sched) : TasksKept s (schedDetachWaitq i s) :=
  tasksKept_iff.mpr (.detach wakeRel_slotKept i s)

theorem tasksKept_wakeOne (q : WaitqRef) (s : Sched) : TasksKept s (schedWaitqWakeOne q s) :=
  tasksKept_iff.mpr (.wakeOne wakeRel_slotKept q s)

theorem tasksKept_handle (d : Device) (bytes : ℕ) (s : Sched) :
    TasksKept s (d.handle bytes s) :=
  tasksKept_iff.mpr (.handle wakeRel_slotKept (fun _ _ _ => ⟨rfl, rfl, rfl, rfl, id⟩) d bytes s)

theorem tasksKept_takeIrqs (irqs : List Irq) (s : SyscallState) :
    TasksKept s.sched (takeIrqs irqs s).sched := by
  unfold takeIrqs
  exact tasksKept_iff.mpr (.foldl wakeRel_slotKept
    (fun s irq => tasksKept_iff.mp (tasksKept_handle irq.1 irq.2 s)) irqs s.sched)

theorem tasksKept_waitqSleep (q : WaitqRef) (timeout : BitVec 32) (s : Sched) :
    TasksKept s (schedWaitqSleep q timeout s) := by
  unfold schedWaitqSleep
  split
  · exact .refl s
  · rename_i i _
    dsimp only
    by_cases hidle : (s.tasks i).isIdle = true
    · rw [if_pos hidle]
      exact .refl s
    · rw [if_neg hidle]
      refine (tasksKept_detach i s).trans ?_
      exact .of_update rfl rfl ⟨rfl, rfl, rfl, rfl, nofun⟩

/-! ## Reaping -/

/-- A child that can be reaped. -/
def DeadChild (s : Sched) (parentTid pid : BitVec 32) (j : TaskIdx) : Prop :=
  schedTaskIsChildOf (s.tasks j) parentTid pid = true ∧ (s.tasks j).state = .zombie

instance (s : Sched) (parentTid pid : BitVec 32) (j : TaskIdx) :
    Decidable (DeadChild s parentTid pid j) :=
  inferInstanceAs (Decidable (_ ∧ _))

theorem schedTryReapChild_cases (parentTid pid : BitVec 32) (s : Sched) :
    (∃ j status, DeadChild s parentTid pid j ∧
      schedTryReapChild parentTid pid s = ((s.tasks j).tid.toInt, some status, schedClearTask j s)) ∨
    (∃ rc, rc ≤ 0 ∧ schedTryReapChild parentTid pid s = (rc, none, s)) := by
  unfold schedTryReapChild
  dsimp only
  split
  · rename_i j hfind
    have hdead := List.find?_some hfind
    simp only [Bool.and_eq_true, decide_eq_true_eq] at hdead
    exact .inl ⟨j, _, hdead, rfl⟩
  · right
    split_ifs
    · exact ⟨0, le_refl 0, rfl⟩
    · exact ⟨-1, by decide, rfl⟩

/-- With a child and none that is dead there is nothing to reap. -/
theorem schedTryReapChild_alive {parentTid : BitVec 32} (hi : i ∈ taskSlots)
    (hchild : schedTaskIsChildOf (s.tasks i) parentTid pid = true)
    (halive : ∀ j ∈ taskSlots, ¬ DeadChild s parentTid pid j) :
    schedTryReapChild parentTid pid s = (0, none, s) := by
  have hnone : taskSlots.find? (fun j => schedTaskIsChildOf (s.tasks j) parentTid pid &&
      (s.tasks j).state = .zombie) = none := by
    rw [List.find?_eq_none]
    intro j hj hdead
    exact halive j hj (by simpa [DeadChild] using hdead)
  have hany : taskSlots.any (fun j => schedTaskIsChildOf (s.tasks j) parentTid pid) = true :=
    List.any_eq_true.mpr ⟨i, hi, hchild⟩
  unfold schedTryReapChild
  dsimp only
  rw [hnone, if_pos hany]

/-- The task table while a call waits: tasks are kept, but those that were dead at the
call can be reaped. -/
structure WaitInv (s t : Sched) : Prop where
  current : t.currentIdx = s.currentIdx
  slot : ∀ k, SlotKept (s.tasks k) (t.tasks k) ∨
    ((s.tasks k).state = .zombie ∧ (t.tasks k).used = false)

theorem WaitInv.kept {u : Sched} (h : WaitInv s t) (h' : TasksKept t u) : WaitInv s u := by
  refine ⟨h'.current.trans h.current, fun k => ?_⟩
  obtain hk | ⟨hdead, hfree⟩ := h.slot k
  · exact .inl (hk.trans (h'.slot k))
  · exact .inr ⟨hdead, (h'.slot k).used.trans hfree⟩

theorem WaitInv.of_kept (h : TasksKept s t) : WaitInv s t :=
  ⟨h.current, fun k => .inl (h.slot k)⟩

theorem WaitInv.clear {j : TaskIdx} (h : WaitInv s t) (hused : (t.tasks j).used = true)
    (hdead : (t.tasks j).state = .zombie) : WaitInv s (schedClearTask j t) := by
  refine ⟨h.current, fun k => ?_⟩
  by_cases hk : k = j
  · subst hk
    obtain hsame | ⟨-, hfree⟩ := h.slot k
    · exact .inr ⟨hsame.zombie hdead, by simp [schedClearTask, schedWaitqInit, Sched.setTask,
        TaskSlot.zero]⟩
    · rw [hused] at hfree
      cases hfree
  · simpa [schedClearTask, schedWaitqInit, Sched.setTask, hk] using h.slot k

theorem used_of_isChildOf {slot : TaskSlot} {parentTid : BitVec 32}
    (h : schedTaskIsChildOf slot parentTid pid = true) : slot.used = true := by
  simp only [schedTaskIsChildOf, Bool.and_eq_true] at h
  exact h.1.1.1

theorem SlotKept.isChildOf {a b : TaskSlot} (h : SlotKept a b) (parentTid pid : BitVec 32) :
    schedTaskIsChildOf b parentTid pid = schedTaskIsChildOf a parentTid pid := by
  simp only [schedTaskIsChildOf, h.used, h.isIdle, h.parentTid, h.tid]

theorem schedCurrentSlot_eq_some (h : schedCurrentSlot s = some p) :
    p = s.currentIdx ∧ (s.tasks p).used = true := by
  unfold schedCurrentSlot at h
  split_ifs at h with hused
  cases h
  exact ⟨rfl, hused⟩

/-- A child that is dead during the call was dead at the call. -/
theorem WaitInv.deadChild {q j : TaskIdx} (h : WaitInv s t) (hp : schedCurrentSlot s = some p)
    (hq : schedCurrentSlot t = some q) (hdead : DeadChild t (t.tasks q).tid pid j) :
    DeadChild s (s.tasks p).tid pid j ∧ (t.tasks j).tid = (s.tasks j).tid := by
  obtain ⟨rfl, -⟩ := schedCurrentSlot_eq_some hp
  obtain ⟨rfl, hused⟩ := schedCurrentSlot_eq_some hq
  obtain ⟨hchild, hzombie⟩ := hdead
  have hkept : ∀ k, (t.tasks k).used = true → SlotKept (s.tasks k) (t.tasks k) := by
    intro k hk
    obtain hsame | ⟨-, hfree⟩ := h.slot k
    · exact hsame
    · rw [hk] at hfree
      cases hfree
  have hj := hkept j (used_of_isChildOf hchild)
  have hcaller := (hkept _ hused).tid
  rw [h.current] at hchild hcaller
  rw [hj.isChildOf, hcaller] at hchild
  exact ⟨⟨hchild, hj.zombie hzombie⟩, hj.tid⟩

/-- `sched_waitpid` without `WNOHANG` keeps the table, and reports only a child that is
dead. -/
theorem schedWaitpid_spec (pid : BitVec 32) (h : WaitInv s t) :
    WaitInv s (schedWaitpid pid 0 t).2.2 ∧
      (0 ≤ (schedWaitpid pid 0 t).1 → ∃ q j, schedCurrentSlot t = some q ∧
        DeadChild t (t.tasks q).tid pid j ∧ (schedWaitpid pid 0 t).1 = (t.tasks j).tid.toInt) := by
  unfold schedWaitpid
  cases hq : schedCurrentSlot t with
  | none => exact ⟨h, fun hrc : (0 : ℤ) ≤ -1 => absurd hrc (by decide)⟩
  | some q =>
    dsimp only
    by_cases hidle : (t.tasks q).isIdle = true
    · rw [if_pos hidle]
      exact ⟨h, fun hrc : (0 : ℤ) ≤ -1 => absurd hrc (by decide)⟩
    · rw [if_neg hidle]
      obtain ⟨j, status, hdead, hreap⟩ | ⟨rc, hrc, hreap⟩ :=
        schedTryReapChild_cases (t.tasks q).tid pid t
      · have hclear := h.clear (used_of_isChildOf hdead.1) hdead.2
        rw [hreap]
        dsimp only
        split_ifs with hzero hopt
        · exact ⟨hclear, fun _ => ⟨q, j, rfl, hdead, rfl⟩⟩
        · exact absurd (by decide) hopt
        · exact ⟨hclear.kept (tasksKept_waitqSleep _ _ _), fun hrc : (0 : ℤ) ≤ -2 => absurd hrc (by decide)⟩
      · rw [hreap]
        dsimp only
        split_ifs with hzero hopt
        · exact ⟨h, fun hge => absurd (le_antisymm hrc hge) hzero⟩
        · exact absurd (by decide) hopt
        · exact ⟨h.kept (tasksKept_waitqSleep _ _ _), fun hrc : (0 : ℤ) ≤ -2 => absurd hrc (by decide)⟩

/-! ## The loop -/

variable {statusAddr status : BitVec 32} {x y : SyscallState} {r : SyscallResult}

/-- One iteration: what it does to the table, which value it returns when it succeeds,
and when it goes round. -/
theorem waitpidRetry_spec (pid statusAddr status : BitVec 32) (x : SyscallState) :
    (waitpidRetry pid statusAddr 0 status x).2.sched = (schedWaitpid pid 0 x.sched).2.2 ∧
      (∀ r, (waitpidRetry pid statusAddr 0 status x).1 = .inl r → r.err = .ok →
        0 ≤ (schedWaitpid pid 0 x.sched).1 ∧
          r.ret = BitVec.ofInt 32 (schedWaitpid pid 0 x.sched).1) ∧
      ((schedWaitpid pid 0 x.sched).1 = schedWaitpidBlocked →
        ∃ later, (waitpidRetry pid statusAddr 0 status x).1 = .inr later) := by
  have hopt : ¬ ((0 : BitVec 32) &&& sysWaitpidWnohang ≠ 0) := by decide
  have hneg : schedWaitpidBlocked < 0 := by decide
  unfold waitpidRetry
  dsimp only
  rw [if_neg hopt]
  generalize schedWaitpid pid 0 x.sched = w
  obtain ⟨rc, statusOut, sched⟩ := w
  dsimp only
  split_ifs with hpos haddr hzero hblocked
  · cases abiUserWrite32 statusAddr (statusOut.getD status) x.memory with
    | none =>
      refine ⟨rfl, ?_, fun hrc => by omega⟩
      rintro r ⟨rfl⟩ hok
      cases hok
    | some memory =>
      refine ⟨rfl, ?_, fun hrc => by omega⟩
      rintro r ⟨rfl⟩ -
      exact ⟨le_of_lt hpos, rfl⟩
  · refine ⟨rfl, ?_, fun hrc => by omega⟩
    rintro r ⟨rfl⟩ -
    exact ⟨le_of_lt hpos, rfl⟩
  · refine ⟨rfl, ?_, fun hrc => by omega⟩
    rintro r ⟨rfl⟩ -
    exact ⟨le_of_eq hzero.symm, by rw [hzero]; rfl⟩
  · exact ⟨rfl, nofun, fun _ => ⟨_, rfl⟩⟩
  · refine ⟨rfl, ?_, fun hrc => absurd hrc hblocked⟩
    rintro r ⟨rfl⟩ hok
    cases hok

/-- A call that returns has kept the tasks that were not dead, and its value is the
identifier of a child that was dead at the call. -/
theorem waitpidLoop_reports (hp : schedCurrentSlot s = some p) {irqs : List (List Irq)}
    (h : WaitInv s x.sched)
    (hrun : waitpidLoop pid statusAddr 0 irqs status x = some (r, y)) :
    WaitInv s y.sched ∧ (r.err = .ok →
      ∃ j, DeadChild s (s.tasks p).tid pid j ∧ r.ret = (s.tasks j).tid) := by
  induction irqs generalizing x status with
  | nil => cases hrun
  | cons irqs later ih =>
    have htaken := h.kept (tasksKept_takeIrqs irqs x)
    obtain ⟨hnext, hreport⟩ := schedWaitpid_spec pid htaken
    obtain ⟨hsched, hok, -⟩ := waitpidRetry_spec pid statusAddr status (takeIrqs irqs x)
    rw [← hsched] at hnext
    unfold waitpidLoop at hrun
    cases hretry : waitpidRetry pid statusAddr 0 status (takeIrqs irqs x) with
    | mk outcome z =>
      rw [hretry] at hrun hnext hok
      cases outcome with
      | inl r' =>
        obtain ⟨rfl, rfl⟩ := Prod.mk.inj (Option.some.inj hrun)
        refine ⟨hnext, fun herr => ?_⟩
        obtain ⟨hrc, hret⟩ := hok r' rfl herr
        obtain ⟨q, j, hq, hdead, hvalue⟩ := hreport hrc
        obtain ⟨hdead', htid⟩ := htaken.deadChild hp hq hdead
        refine ⟨j, hdead', ?_⟩
        rw [hret, hvalue, BitVec.ofInt_toInt, htid]
      | inr status' => exact ih hnext hrun

/-- With a child and no dead one `sched_waitpid` blocks the caller. -/
theorem schedWaitpid_blocks (hp : schedCurrentSlot s = some p) (hactive : (s.tasks p).isIdle = false)
    (hi : i ∈ taskSlots) (hchild : schedTaskIsChildOf (s.tasks i) (s.tasks p).tid pid = true)
    (halive : ∀ j ∈ taskSlots, ¬ DeadChild s (s.tasks p).tid pid j) :
    schedWaitpid pid 0 s = (schedWaitpidBlocked, none, schedWaitqSleep (.child p) 0 s) := by
  unfold schedWaitpid
  rw [hp]
  dsimp only
  rw [if_neg (by simp [hactive]), schedTryReapChild_alive hi hchild halive]
  rfl

theorem waitpidLoop_never (hp : schedCurrentSlot s = some p) (hactive : (s.tasks p).isIdle = false)
    (hi : i ∈ taskSlots) (hchild : schedTaskIsChildOf (s.tasks i) (s.tasks p).tid pid = true)
    (halive : ∀ j ∈ taskSlots, ¬ DeadChild s (s.tasks p).tid pid j) (irqs : List (List Irq))
    (h : TasksKept s x.sched) : waitpidLoop pid statusAddr 0 irqs status x = none := by
  induction irqs generalizing x status with
  | nil => rfl
  | cons irqs later ih =>
    have htaken := h.trans (tasksKept_takeIrqs irqs x)
    obtain ⟨rfl, hused⟩ := schedCurrentSlot_eq_some hp
    have hcaller := htaken.slot s.currentIdx
    have hq : schedCurrentSlot (takeIrqs irqs x).sched = some s.currentIdx := by
      rw [schedCurrentSlot, htaken.current, hcaller.used, if_pos hused]
    have hblocks := schedWaitpid_blocks hq (hcaller.isIdle.trans hactive) hi
      (by rw [(htaken.slot i).isChildOf, hcaller.tid]; exact hchild)
      fun j hj hdead => halive j hj ((WaitInv.of_kept htaken).deadChild hp hq hdead).1
    obtain ⟨hsched, -, hround⟩ := waitpidRetry_spec pid statusAddr status (takeIrqs irqs x)
    rw [hblocks] at hsched hround
    obtain ⟨status', houtcome⟩ := hround rfl
    unfold waitpidLoop
    cases hretry : waitpidRetry pid statusAddr 0 status (takeIrqs irqs x) with
    | mk outcome z =>
      rw [hretry] at hsched houtcome
      subst houtcome
      refine ih ?_
      rw [hsched]
      exact htaken.trans (tasksKept_waitqSleep _ _ _)

/-! ## A child that would exit -/

/-- The caller has a child that is runnable and exits with `c` the next time it runs.
What a callback does is the list of its calls. -/
structure WaitableChild (callbacks : ℕ → List SchedCall) (s : Sched) (pid c : BitVec 32)
    (p i : TaskIdx) : Prop where
  current : schedCurrentSlot s = some p
  active : (s.tasks p).isIdle = false
  slot : i ≠ 0
  child : schedTaskIsChildOf (s.tasks i) (s.tasks p).tid (waitpidTarget pid) = true
  runnable : (s.tasks i).state = .runnable
  exits : ∃ e, (s.tasks i).entry = some e ∧ (callbacks e).head? = some (.exitCode c)

/-- The call returns, under the interrupts that come, with the child's identifier, and
has stored its status and freed its slot. -/
def ReturnsChild (pid statusAddr c : BitVec 32) (i : TaskIdx) (irqs : ℕ → List Irq)
    (x : SyscallState) : Prop :=
  ∃ n y, sysWaitpid pid statusAddr 0 ((List.range n).map irqs) x =
      some (⟨(x.sched.tasks i).tid, .ok⟩, y) ∧
    (statusAddr ≠ 0 → leNat y.memory statusAddr.toNat 4 = ((c &&& 0xFF) <<< 8).toNat) ∧
    (y.sched.tasks i).used = false

theorem mem_taskSlots (h : i ≠ 0) : i ∈ taskSlots := by
  revert h
  revert i
  decide

theorem sysWaitpid_eq {irqs : List (List Irq)} (hpid : -1 ≤ (waitpidTarget pid).toInt) :
    sysWaitpid pid statusAddr 0 irqs x =
      waitpidLoop (waitpidTarget pid) statusAddr 0 irqs 0 x := by
  have hany : schedWaitpidAny.toInt = -1 := by decide
  rw [sysWaitpid, if_neg (by omega), if_neg (by decide)]

/-- A runnable child is never returned: a call that succeeds reports another child,
which was dead at the call, and without a dead child the call never returns, whatever
interrupts come. -/
theorem waitpid_passes_over_runnable_child {callbacks : ℕ → List SchedCall} {c : BitVec 32}
    (h : WaitableChild callbacks x.sched pid c p i) (statusAddr : BitVec 32)
    (irqs : ℕ → List Irq) :
    ¬ ReturnsChild pid statusAddr c i irqs x ∧
      (∀ n r y, sysWaitpid pid statusAddr 0 ((List.range n).map irqs) x = some (r, y) →
        r.err = .ok → ∃ j, j ≠ i ∧
          DeadChild x.sched (x.sched.tasks p).tid (waitpidTarget pid) j ∧
          r.ret = (x.sched.tasks j).tid) ∧
      (-1 ≤ (waitpidTarget pid).toInt →
        (∀ j, ¬ DeadChild x.sched (x.sched.tasks p).tid (waitpidTarget pid) j) →
        ∀ n, sysWaitpid pid statusAddr 0 ((List.range n).map irqs) x = none) := by
  have hreports : ∀ n r y, sysWaitpid pid statusAddr 0 ((List.range n).map irqs) x = some (r, y) →
      r.err = .ok → WaitInv x.sched y.sched ∧ ∃ j,
        DeadChild x.sched (x.sched.tasks p).tid (waitpidTarget pid) j ∧
          r.ret = (x.sched.tasks j).tid := by
    intro n r y hrun hok
    by_cases hpid : -1 ≤ (waitpidTarget pid).toInt
    · rw [sysWaitpid_eq hpid] at hrun
      obtain ⟨hinv, hdead⟩ := waitpidLoop_reports h.current (.of_kept (.refl _)) hrun
      exact ⟨hinv, hdead hok⟩
    · have hany : schedWaitpidAny.toInt = -1 := by decide
      rw [sysWaitpid, if_pos (by omega)] at hrun
      obtain ⟨rfl, -⟩ := Prod.mk.inj (Option.some.inj hrun)
      cases hok
  refine ⟨?_, ?_, ?_⟩
  · rintro ⟨n, y, hrun, -, hfree⟩
    obtain ⟨hinv, -⟩ := hreports n _ y hrun rfl
    obtain hkept | ⟨hzombie, -⟩ := hinv.slot i
    · rw [hkept.used, used_of_isChildOf h.child] at hfree
      cases hfree
    · rw [h.runnable] at hzombie
      cases hzombie
  · intro n r y hrun hok
    obtain ⟨-, j, hdead, hret⟩ := hreports n r y hrun hok
    refine ⟨j, ?_, hdead, hret⟩
    rintro rfl
    have hzombie := hdead.2
    rw [h.runnable] at hzombie
    cases hzombie
  · intro hpid halive n
    rw [sysWaitpid_eq hpid]
    exact waitpidLoop_never h.current h.active (mem_taskSlots h.slot) h.child
      (fun j _ => halive j) _ (.refl _)

/-- A running task whose only child has just been spawned. -/
def parentTask : Sched :=
  (schedSpawn (some 2) (enterTask 1 (runSelect (schedSpawn (some 1) schedInit).2))).2

def parentCallbacks : ℕ → List SchedCall
  | 2 => [.exitCode 7]
  | _ => []

theorem parentTask_waitableChild : WaitableChild parentCallbacks parentTask 2 7 1 2 where
  current := by decide
  active := by decide
  slot := by decide
  child := by decide
  runnable := by decide
  exits := ⟨2, by decide, by decide⟩

theorem parentTask_alive : ∀ j, ¬ DeadChild parentTask (parentTask.tasks 1).tid (waitpidTarget 2) j := by
  decide

theorem waitpid_passes_over_second_task :
    WaitableChild parentCallbacks parentTask 2 7 1 2 ∧
      ∀ n, sysWaitpid 2 0x1000 0 ((List.range n).map fun _ => [(.timer, 0)])
        ⟨parentTask, fun _ => 0⟩ = none := by
  have h := waitpid_passes_over_runnable_child (x := ⟨parentTask, fun _ => 0⟩)
    parentTask_waitableChild 0x1000 fun _ => [(.timer, 0)]
  exact ⟨parentTask_waitableChild, h.2.2 (by decide) parentTask_alive⟩

/-- The call does not even return, with or without ticks. -/
theorem waitpid_ignores_runnable_child :
    ¬ ∀ (callbacks : ℕ → List SchedCall) (x : SyscallState) (pid c statusAddr : BitVec 32)
        (p i : TaskIdx), WaitableChild callbacks x.sched pid c p i →
      abiPtrRangeOk statusAddr 4 = true → ∀ irqs : ℕ → List Irq,
      ∃ n y, sysWaitpid pid statusAddr 0 ((List.range n).map irqs) x =
          some (⟨(x.sched.tasks i).tid, .ok⟩, y) ∧
        leNat y.memory statusAddr.toNat 4 = ((c &&& 0xFF) <<< 8).toNat := by
  intro hall
  obtain ⟨n, y, hrun, -⟩ := hall parentCallbacks ⟨parentTask, fun _ => 0⟩ 2 7 0x1000 1 2
    parentTask_waitableChild (by decide) fun _ => [(.timer, 0)]
  have hnever : sysWaitpid 2 0x1000 0 ((List.range n).map fun _ => [(.timer, 0)])
      ⟨parentTask, fun _ => 0⟩ = none := by
    rw [sysWaitpid_eq (by decide)]
    exact waitpidLoop_never (i := 2) parentTask_waitableChild.current
      parentTask_waitableChild.active (by decide) parentTask_waitableChild.child
      (fun j _ => parentTask_alive j) _ (.refl _)
  rw [hnever] at hrun
  cases hrun

end LampVm
