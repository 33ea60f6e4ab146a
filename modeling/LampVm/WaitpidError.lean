import LampVm.Reaping
import LampVm.Slotwise

/-!
# `SYS_WAITPID` that fails

The call reaps a child before it looks at the address for the status. When the address
is bad it fails with `EFAULT` although the child's slot is gone; every other failure
leaves all tasks as they were. Interrupts that are handled during the call can wake
tasks, but reap none.
-/
namespace LampVm

open Transition ByteOrder

variable {op : SchedOp} {s₀ s t : Sched} {i p : TaskIdx} {x y : SyscallState}

/-! ## What interrupts leave alone -/

/-- The same task, and dead only if it was: a wake-up is all that has happened to it. -/
structure SlotIntact (a b : TaskSlot) : Prop where
  same : SameTask a b
  exitCode : b.exitCode = a.exitCode
  zombie : b.state = .zombie ↔ a.state = .zombie

theorem SlotIntact.refl (a : TaskSlot) : SlotIntact a a := ⟨.refl a, rfl, Iff.rfl⟩

theorem SlotIntact.trans {a b c : TaskSlot} (h : SlotIntact a b) (h' : SlotIntact b c) :
    SlotIntact a c where
  same := ⟨h'.same.tid.trans h.same.tid, h'.same.used.trans h.same.used,
    h'.same.isIdle.trans h.same.isIdle, h'.same.parentTid.trans h.same.parentTid,
    h'.same.entry.trans h.same.entry⟩
  exitCode := h'.exitCode.trans h.exitCode
  zombie := h'.zombie.trans h.zombie

theorem SchedMove.intact {es : List SchedEvent} (hmove : SchedMove .tick s₀ s es t) (k : TaskIdx) :
    SlotIntact (s.tasks k) (t.tasks k) := by
  have hupdate : ∀ {i : TaskIdx} {b : TaskSlot}, SlotIntact (s.tasks i) b →
      SlotIntact (s.tasks k) (Function.update s.tasks i b k) := by
    intro i b hb
    rw [Function.update_apply]
    split_ifs with hk
    · rw [hk]
      exact hb
    · exact .refl _
  cases hmove with
  | state ht hsame hwaitq hcode hstate =>
    rw [ht.tasks]
    exact hupdate ⟨hsame, hcode, hstate.zombie, fun hdead =>
      hstate.of_zombie hdead fun _ hrests => hrests⟩
  | die ht hself hop => cases hop
  | detach i =>
    rw [detach_tasks]
    exact hupdate ⟨⟨rfl, rfl, rfl, rfl, rfl⟩, rfl, Iff.rfl⟩
  | attach ht hself hrests => exact hrests.elim
  | reap i hop =>
    obtain ⟨pid, options, hop⟩ := hop
    cases hop
  | spawn ht hop =>
    obtain ⟨entry, hop⟩ := hop
    cases hop

theorem moves_handle (s₀ : Sched) (d : Device) (bytes : ℕ) (s : Sched) :
    Moves .tick s₀ s [] (d.handle bytes s) := by
  have hwakes : Moves .tick s₀ s [] ((schedWaitqWakeOne .console)^[bytes] s) := by
    induction bytes generalizing s with
    | zero => exact .refl _ s₀ s
    | succ n ih => exact (moves_wakeOne .tick s₀ .console s).trans (ih _)
  cases d with
  | timer => exact moves_tick .tick s₀ s
  | keyboard | serial => exact hwakes
  | disk => exact .refl _ s₀ s

theorem takeIrqs_intact (irqs : List Irq) (x : SyscallState) (k : TaskIdx) :
    SlotIntact (x.sched.tasks k) ((takeIrqs irqs x).sched.tasks k) := by
  obtain ⟨ls, hrun, -⟩ := moves_foldl (fun s irq => moves_handle x.sched irq.1 irq.2 s) irqs x.sched
  refine hrun.keeps (P := fun u => SlotIntact (x.sched.tasks k) (u.tasks k)) ?_ (.refl _)
  intro u es v hu hmove
  exact hu.trans (SchedMove.intact hmove k)

/-- The descriptors and the count of the task's turns are the same. -/
def SameRecords (a b : TaskSlot) : Prop := b.fds = a.fds ∧ b.runTicks = a.runTicks

theorem sameRecords_wake : WakeRel fun _ => SameRecords where
  refl _ _ := ⟨rfl, rfl⟩
  trans h h' := ⟨h'.1.trans h.1, h'.2.trans h.2⟩
  detach _ _ := ⟨rfl, rfl⟩
  wake _ _ := ⟨rfl, rfl⟩

theorem takeIrqs_records (irqs : List Irq) (x : SyscallState) (k : TaskIdx) :
    SameRecords (x.sched.tasks k) ((takeIrqs irqs x).sched.tasks k) := by
  have hslots : Slotwise (fun _ => SameRecords) x.sched (takeIrqs irqs x).sched := by
    refine Slotwise.foldl sameRecords_wake (fun s irq => ?_) irqs x.sched
    exact Slotwise.handle sameRecords_wake (fun _ _ _ => ⟨rfl, rfl⟩) irq.1 irq.2 s
  exact hslots.slot k

/-! ## The statement -/

/-- A failed call of the task in slot `c` has reaped nothing: every slot has its task, its exit
code, its descriptors and its death, and without interrupts no slot has changed at all. -/
structure TasksIntact (c : TaskIdx) (irqs : List (List Irq)) (s t : Sched) : Prop where
  others : ∀ k, k ≠ c → SlotIntact (s.tasks k) (t.tasks k)
  caller : SameTask (s.tasks c) (t.tasks c) ∧ (t.tasks c).exitCode = (s.tasks c).exitCode
  records : ∀ k, SameRecords (s.tasks k) (t.tasks k)
  quiet : (∀ batch ∈ irqs, batch = []) → t.tasks = s.tasks

/-- Whatever interrupts are handled during the call, when it fails all tasks are intact. -/
def WaitpidAtomic (pid statusAddr options : BitVec 32) (x : SyscallState) : Prop :=
  ∀ irqs r y, sysWaitpid pid statusAddr options irqs x = some (r, y) → r.err ≠ .ok →
    TasksIntact x.sched.currentIdx irqs x.sched y.sched

/-- The child that the current task would reap. -/
def waitpidVictim (s : Sched) (pid : BitVec 32) : Option TaskIdx :=
  match schedCurrentSlot s with
  | none => none
  | some p =>
    if (s.tasks p).isIdle then none
    else taskSlots.find? fun i =>
      schedTaskIsChildOf (s.tasks i) (s.tasks p).tid pid && (s.tasks i).state = .zombie

/-- The arguments are rejected, or there is no child to reap, or its identifier is positive
and there is a place for its status. -/
def WaitpidSafe (pid statusAddr options : BitVec 32) (s : Sched) : Prop :=
  (waitpidTarget pid).toInt < schedWaitpidAny.toInt ∨ options &&& ~~~sysWaitpidWnohang ≠ 0 ∨
    ∀ j, waitpidVictim s (waitpidTarget pid) = some j →
      0 < (s.tasks j).tid.toInt ∧ (statusAddr = 0 ∨ abiPtrRangeOk statusAddr 4 = true)

/-! ## One iteration -/

variable {pid statusAddr options status : BitVec 32}

/-- The option that the loop passes on. -/
def waitpidSchedOptions (options : BitVec 32) : BitVec 32 :=
  if options &&& sysWaitpidWnohang ≠ 0 then schedWaitpidWnohang else 0

theorem waitpidRetry_noChild (pid : BitVec 32) {t : Sched}
    (h : schedWaitpid pid (waitpidSchedOptions options) x.sched = (schedWaitpidNoChild, none, t)) :
    waitpidRetry pid statusAddr options status x =
      (.inl (syscallFailure .echild), { x with sched := t }) := by
  unfold waitpidRetry
  dsimp only
  unfold waitpidSchedOptions at h
  rw [h]
  rfl

/-- A result that is neither zero nor `BLOCKED` ends the loop; it does so with an error when
it is negative or when the status has no place. -/
theorem waitpidRetry_fails {rc : ℤ} {statusOut : Option (BitVec 32)}
    (h : schedWaitpid pid (waitpidSchedOptions options) x.sched = (rc, statusOut, t))
    (hzero : rc ≠ 0) (hblocked : rc ≠ schedWaitpidBlocked)
    (hbad : ¬ 0 < rc ∨ ¬ statusAddr = 0 ∧ ¬ abiPtrRangeOk statusAddr 4 = true) :
    ∃ err, err ≠ .ok ∧ waitpidRetry pid statusAddr options status x =
      (.inl (syscallFailure err), { x with sched := t }) := by
  unfold waitpidRetry
  unfold waitpidSchedOptions at h
  dsimp only
  rw [h]
  dsimp only
  by_cases hpos : 0 < rc
  · obtain ⟨haddr, hrange⟩ := hbad.resolve_left (not_not.mpr hpos)
    refine ⟨.efault, by decide, ?_⟩
    unfold abiUserWrite32
    rw [if_pos hpos, if_pos haddr, if_neg hrange]
  · refine ⟨.echild, by decide, ?_⟩
    rw [if_neg hpos, if_neg hzero, if_neg hblocked]

/-- Without a slot of its own, or as the idle task, the caller has no children. -/
theorem schedWaitpid_noCaller (pid options : BitVec 32)
    (h : ∀ p, schedCurrentSlot s = some p → (s.tasks p).isIdle = true) :
    schedWaitpid pid options s = (schedWaitpidNoChild, none, s) := by
  unfold schedWaitpid
  cases hp : schedCurrentSlot s with
  | none => rfl
  | some p =>
    dsimp only
    rw [if_pos (h p hp)]

theorem schedCurrentSlot_takeIrqs (irqs : List Irq) (x : SyscallState) :
    schedCurrentSlot (takeIrqs irqs x).sched = schedCurrentSlot x.sched := by
  have hcurrent := (tasksKept_takeIrqs irqs x).current
  unfold schedCurrentSlot
  rw [hcurrent, (takeIrqs_intact irqs x _).same.used]

theorem SlotIntact.isChildOf {a b : TaskSlot} (h : SlotIntact a b) (parentTid pid : BitVec 32) :
    schedTaskIsChildOf b parentTid pid = schedTaskIsChildOf a parentTid pid := by
  unfold schedTaskIsChildOf
  rw [h.same.used, h.same.isIdle, h.same.parentTid, h.same.tid]

/-- Interrupts do not change whom the call would reap. -/
theorem waitpidVictim_takeIrqs (irqs : List Irq) (x : SyscallState) (pid : BitVec 32) :
    waitpidVictim (takeIrqs irqs x).sched pid = waitpidVictim x.sched pid := by
  unfold waitpidVictim
  rw [schedCurrentSlot_takeIrqs]
  cases schedCurrentSlot x.sched with
  | none => rfl
  | some p =>
    dsimp only
    rw [(takeIrqs_intact irqs x p).same.isIdle, (takeIrqs_intact irqs x p).same.tid]
    congr 2
    funext i
    rw [(takeIrqs_intact irqs x i).isChildOf]
    simp only [(takeIrqs_intact irqs x i).zombie]

theorem waitpidVictim_eq_some {j : TaskIdx} (h : waitpidVictim s pid = some j) :
    ∃ p, schedCurrentSlot s = some p ∧ (s.tasks p).isIdle = false ∧
      taskSlots.find? (fun i => schedTaskIsChildOf (s.tasks i) (s.tasks p).tid pid &&
        decide ((s.tasks i).state = .zombie)) = some j := by
  unfold waitpidVictim at h
  cases hp : schedCurrentSlot s with
  | none =>
    rw [hp] at h
    cases h
  | some p =>
    rw [hp] at h
    dsimp only at h
    split_ifs at h with hidle
    exact ⟨p, rfl, by simpa using hidle, h⟩

theorem victim_used {j : TaskIdx} (h : waitpidVictim s pid = some j) :
    (s.tasks j).used = true := by
  obtain ⟨p, -, -, hfind⟩ := waitpidVictim_eq_some h
  have hdead := List.find?_some hfind
  simp only [Bool.and_eq_true] at hdead
  exact used_of_isChildOf hdead.1

/-- A call that finds a dead child frees its slot, whatever it does afterwards. -/
theorem schedWaitpid_victim (options : BitVec 32) {j : TaskIdx}
    (h : waitpidVictim s pid = some j) (hzero : (s.tasks j).tid.toInt ≠ 0) :
    schedWaitpid pid options s = ((s.tasks j).tid.toInt,
      some (((s.tasks j).exitCode &&& 0xFF) <<< 8), schedClearTask j s) := by
  obtain ⟨p, hp, hactive, hfind⟩ := waitpidVictim_eq_some h
  have hreap : schedTryReapChild (s.tasks p).tid pid s = ((s.tasks j).tid.toInt,
      some (((s.tasks j).exitCode &&& 0xFF) <<< 8), schedClearTask j s) := by
    unfold schedTryReapChild
    dsimp only
    rw [hfind]
  rw [schedWaitpid_eq options hp hactive hreap, if_pos hzero]

/-- Without a dead child the caller has no child at all, or one that is alive. -/
theorem noVictim_cases (h : waitpidVictim s pid = none) :
    (∀ options, schedWaitpid pid options s = (schedWaitpidNoChild, none, s)) ∨
    ∃ p i, schedCurrentSlot s = some p ∧ (s.tasks p).isIdle = false ∧ i ∈ taskSlots ∧
      schedTaskIsChildOf (s.tasks i) (s.tasks p).tid pid = true ∧
      ∀ j ∈ taskSlots, ¬ DeadChild s (s.tasks p).tid pid j := by
  unfold waitpidVictim at h
  cases hp : schedCurrentSlot s with
  | none =>
    left
    intro options
    refine schedWaitpid_noCaller pid options fun p hp' => ?_
    rw [hp] at hp'
    cases hp'
  | some p =>
    rw [hp] at h
    dsimp only at h
    by_cases hidle : (s.tasks p).isIdle = true
    · left
      intro options
      refine schedWaitpid_noCaller pid options fun p' hp' => ?_
      rw [hp] at hp'
      cases hp'
      exact hidle
    rw [if_neg hidle] at h
    have hactive : (s.tasks p).isIdle = false := by simpa using hidle
    by_cases hany : taskSlots.any (fun i => schedTaskIsChildOf (s.tasks i) (s.tasks p).tid pid)
    · right
      obtain ⟨i, hi, hchild⟩ := List.any_eq_true.mp hany
      refine ⟨p, i, rfl, hactive, hi, hchild, fun j hj hdead => ?_⟩
      refine List.find?_eq_none.mp h j hj ?_
      simpa [DeadChild] using hdead
    · left
      intro options
      have hreap : schedTryReapChild (s.tasks p).tid pid s = (schedWaitpidNoChild, none, s) := by
        unfold schedTryReapChild
        dsimp only
        rw [h]
        dsimp only
        rw [if_neg hany]
      rw [schedWaitpid_eq options hp hactive hreap]
      rfl

/-! ## The loop -/

theorem waitpidLoop_options (h : options &&& sysWaitpidWnohang = 0) (pid statusAddr : BitVec 32) :
    waitpidLoop pid statusAddr options = waitpidLoop pid statusAddr 0 := by
  have hretry : ∀ status x, waitpidRetry pid statusAddr options status x =
      waitpidRetry pid statusAddr 0 status x := by
    intro status x
    unfold waitpidRetry
    rw [h]
    rfl
  funext irqs
  induction irqs with
  | nil => rfl
  | cons irqs later ih =>
    funext status x
    unfold waitpidLoop
    rw [hretry, ih]

/-- With a child alive and none dead the loop does not fail. -/
theorem waitpidLoop_alive {irqs : List Irq} {later : List (List Irq)} {r : SyscallResult}
    (hp : schedCurrentSlot (takeIrqs irqs x).sched = some p)
    (hactive : ((takeIrqs irqs x).sched.tasks p).isIdle = false) (hi : i ∈ taskSlots)
    (hchild : schedTaskIsChildOf ((takeIrqs irqs x).sched.tasks i)
      ((takeIrqs irqs x).sched.tasks p).tid pid = true)
    (halive : ∀ j ∈ taskSlots,
      ¬ DeadChild (takeIrqs irqs x).sched ((takeIrqs irqs x).sched.tasks p).tid pid j)
    (hrun : waitpidLoop pid statusAddr options (irqs :: later) status x = some (r, y)) :
    r.err = .ok := by
  by_cases hopt : options &&& sysWaitpidWnohang = 0
  · rw [waitpidLoop_options hopt] at hrun
    have hnever : waitpidLoop pid statusAddr 0 ([] :: later) status (takeIrqs irqs x) = none :=
      waitpidLoop_never hp hactive hi hchild halive ([] :: later) (.refl _)
    cases hrun.symm.trans hnever
  · have hreap := schedTryReapChild_alive hi hchild halive
    have hcall : schedWaitpid pid (waitpidSchedOptions options) (takeIrqs irqs x).sched =
        (0, none, (takeIrqs irqs x).sched) := by
      rw [schedWaitpid_eq _ hp hactive hreap, if_neg (by simp)]
      unfold waitpidSchedOptions
      rw [if_pos hopt]
      rfl
    have hretry : waitpidRetry pid statusAddr options status (takeIrqs irqs x) =
        (.inl ⟨0, .ok⟩, takeIrqs irqs x) := by
      unfold waitpidRetry
      dsimp only
      unfold waitpidSchedOptions at hcall
      rw [hcall]
      rfl
    unfold waitpidLoop at hrun
    rw [hretry] at hrun
    obtain ⟨rfl, -⟩ := Prod.mk.inj (Option.some.inj hrun)
    rfl

/-- A table that only interrupts have touched. -/
theorem tasksIntact_takeIrqs (irqs : List Irq) (later : List (List Irq)) (x : SyscallState) :
    TasksIntact x.sched.currentIdx (irqs :: later) x.sched (takeIrqs irqs x).sched where
  others k _ := takeIrqs_intact irqs x k
  caller := ⟨(takeIrqs_intact irqs x _).same, (takeIrqs_intact irqs x _).exitCode⟩
  records k := takeIrqs_records irqs x k
  quiet hquiet := by
    rw [hquiet irqs (List.mem_cons_self ..)]
    rfl

theorem waitpidLoop_atomic {irqs : List (List Irq)} {r : SyscallResult}
    (hsafe : ∀ j, waitpidVictim x.sched pid = some j →
      0 < (x.sched.tasks j).tid.toInt ∧ (statusAddr = 0 ∨ abiPtrRangeOk statusAddr 4 = true))
    (hrun : waitpidLoop pid statusAddr options irqs status x = some (r, y)) (herr : r.err ≠ .ok) :
    TasksIntact x.sched.currentIdx irqs x.sched y.sched := by
  cases irqs with
  | nil => cases hrun
  | cons irqs later =>
    have hvictim := waitpidVictim_takeIrqs irqs x pid
    cases hv : waitpidVictim x.sched pid with
    | some j =>
      obtain ⟨hpos, haddr⟩ := hsafe j hv
      rw [hv] at hvictim
      have htid := (takeIrqs_intact irqs x j).same.tid
      have hcall := schedWaitpid_victim (waitpidSchedOptions options) hvictim
        (by rw [htid]; exact ne_of_gt hpos)
      rw [htid] at hcall
      unfold waitpidLoop waitpidRetry at hrun
      unfold waitpidSchedOptions at hcall
      dsimp only at hrun
      rw [hcall] at hrun
      dsimp only at hrun
      rw [if_pos hpos] at hrun
      by_cases hzero : statusAddr = 0
      · rw [if_neg (not_not.mpr hzero)] at hrun
        obtain ⟨rfl, -⟩ := Prod.mk.inj (Option.some.inj hrun)
        exact absurd rfl herr
      · rw [if_pos hzero] at hrun
        unfold abiUserWrite32 at hrun
        rw [if_pos (haddr.resolve_left hzero)] at hrun
        obtain ⟨rfl, -⟩ := Prod.mk.inj (Option.some.inj hrun)
        exact absurd rfl herr
    | none =>
      rw [hv] at hvictim
      obtain hnone | ⟨p, i, hp, hactive, hi, hchild, halive⟩ := noVictim_cases hvictim
      · unfold waitpidLoop at hrun
        rw [waitpidRetry_noChild pid (hnone _)] at hrun
        obtain ⟨-, rfl⟩ := Prod.mk.inj (Option.some.inj hrun)
        exact tasksIntact_takeIrqs irqs later x
      · exact absurd (waitpidLoop_alive hp hactive hi hchild halive hrun) herr

theorem waitpidAtomic_of_safe (h : WaitpidSafe pid statusAddr options x.sched) :
    WaitpidAtomic pid statusAddr options x := by
  intro irqs r y hrun herr
  have hsame : TasksIntact x.sched.currentIdx irqs x.sched x.sched :=
    ⟨fun k _ => .refl _, ⟨.refl _, rfl⟩, fun _ => ⟨rfl, rfl⟩, fun _ => rfl⟩
  unfold sysWaitpid at hrun
  split_ifs at hrun with hpid hopt
  · obtain ⟨-, rfl⟩ := Prod.mk.inj (Option.some.inj hrun)
    exact hsame
  · obtain ⟨-, rfl⟩ := Prod.mk.inj (Option.some.inj hrun)
    exact hsame
  · obtain hpid' | hopt' | hsafe := h
    · exact absurd hpid' hpid
    · exact absurd hopt' hopt
    · exact waitpidLoop_atomic hsafe hrun herr

/-- A call outside the safe cases fails after it has freed the child's slot. The two
identifiers that the loop takes for other results are left out. -/
theorem safe_of_waitpidAtomic
    (hreal : ∀ j, waitpidVictim x.sched (waitpidTarget pid) = some j →
      (x.sched.tasks j).tid.toInt ≠ 0 ∧ (x.sched.tasks j).tid.toInt ≠ schedWaitpidBlocked)
    (h : WaitpidAtomic pid statusAddr options x) : WaitpidSafe pid statusAddr options x.sched := by
  by_contra hunsafe
  unfold WaitpidSafe at hunsafe
  rw [not_or, not_or] at hunsafe
  obtain ⟨hpid, hopt, hvictim⟩ := hunsafe
  rw [not_forall] at hvictim
  obtain ⟨j, hvictim⟩ := hvictim
  rw [Classical.not_imp, not_and_or, not_or] at hvictim
  obtain ⟨hj, hbad⟩ := hvictim
  obtain ⟨hzero, hblocked⟩ := hreal j hj
  have hcall := schedWaitpid_victim (waitpidSchedOptions options) hj hzero
  -- One iteration without interrupts ends the call.
  have hfails : ∃ err, err ≠ .ok ∧ sysWaitpid pid statusAddr options [[]] x =
      some (syscallFailure err, { x with sched := schedClearTask j x.sched }) := by
    obtain ⟨err, herr, hretry⟩ := waitpidRetry_fails hcall hzero hblocked hbad
    refine ⟨err, herr, ?_⟩
    unfold sysWaitpid
    rw [if_neg hpid, if_neg hopt]
    unfold waitpidLoop
    rw [show takeIrqs [] x = x from rfl, hretry]
  obtain ⟨err, herr, hrun⟩ := hfails
  have hintact := h _ _ _ hrun herr
  have hused : SameTask (x.sched.tasks j) ((schedClearTask j x.sched).tasks j) := by
    by_cases hcaller : j = x.sched.currentIdx
    · subst hcaller
      exact hintact.caller.1
    · exact (hintact.others j hcaller).same
  have hfree : ((schedClearTask j x.sched).tasks j).used = false := by
    change (Function.update x.sched.tasks j .zero j).used = false
    rw [Function.update_self]
    rfl
  rw [hused.used, victim_used hj] at hfree
  cases hfree

/-- A failed call has left all tasks alone exactly when it did not have to reap a child
whose status has no place (or whose identifier is negative). -/
theorem waitpid_error_atomic_iff (pid statusAddr options : BitVec 32) (x : SyscallState) :
    (WaitpidSafe pid statusAddr options x.sched → WaitpidAtomic pid statusAddr options x) ∧
    ((∀ j, waitpidVictim x.sched (waitpidTarget pid) = some j →
        (x.sched.tasks j).tid.toInt ≠ 0 ∧ (x.sched.tasks j).tid.toInt ≠ schedWaitpidBlocked) →
      WaitpidAtomic pid statusAddr options x → WaitpidSafe pid statusAddr options x.sched) :=
  ⟨waitpidAtomic_of_safe, safe_of_waitpidAtomic⟩

theorem exitedChild_victim : waitpidVictim exitedChild (waitpidTarget (-1)) = some 2 := by
  decide

theorem exitedChild_real (j : TaskIdx)
    (hj : waitpidVictim exitedChild (waitpidTarget (-1)) = some j) :
    (exitedChild.tasks j).tid.toInt ≠ 0 ∧
      (exitedChild.tasks j).tid.toInt ≠ schedWaitpidBlocked := by
  rw [exitedChild_victim] at hj
  cases hj
  decide

theorem waitpid_error_atomic_second_task :
    WaitpidAtomic (-1) 0x1000 0 ⟨exitedChild, fun _ => 0⟩ ∧
      (WaitpidAtomic (-1) 0x1000 0 ⟨exitedChild, fun _ => 0⟩ →
        WaitpidSafe (-1) 0x1000 0 exitedChild) := by
  have h := waitpid_error_atomic_iff (-1) 0x1000 0 ⟨exitedChild, fun _ => 0⟩
  refine ⟨h.1 (.inr (.inr fun j hj => ?_)), h.2 exitedChild_real⟩
  rw [exitedChild_victim] at hj
  cases hj
  decide

/-- With its status meant for an address beyond the memory the dead child is lost. -/
theorem waitpid_loses_second_task :
    ¬ ∀ pid statusAddr options x, WaitpidAtomic pid statusAddr options x := by
  intro hall
  have hsafe := safe_of_waitpidAtomic (x := ⟨exitedChild, fun _ => 0⟩) exitedChild_real
    (hall (-1) 0x04000000 0 ⟨exitedChild, fun _ => 0⟩)
  obtain hpid | hopt | hplace := hsafe
  · revert hpid
    decide
  · revert hopt
    decide
  · obtain ⟨-, haddr⟩ := hplace 2 exitedChild_victim
    revert haddr
    decide

end LampVm
