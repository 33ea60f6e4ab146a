import LampVm.ConsoleWait
import LampVm.Dispatch
import LampVm.ReadChunks
import LampVm.SyscallConvention

/-!
# Descriptor tables are private

A task's table of descriptors is changed by its own calls on descriptors and by its own end.
The scheduler, the console and the calls of other tasks leave it alone, in every run and with
any nesting of calls that wait.
-/
namespace LampVm

open ByteOrder Transition

/-! ## Slots -/

def TaskSlot.Alive (a : TaskSlot) : Prop := a.used = true ∧ a.state ≠ .zombie

/-- A task that has not ended goes on, with the descriptors that it had. -/
def TaskSlot.Keeps (a b : TaskSlot) : Prop := a.Alive → b.Alive ∧ b.fds = a.fds

/-- Every task but `own` keeps its table. -/
def KeepsTables (own : Option TaskIdx) (s t : Sched) : Prop :=
  ∀ k, own ≠ some k → (s.tasks k).Keeps (t.tasks k)

theorem TaskSlot.Keeps.refl (a : TaskSlot) : a.Keeps a := fun h => ⟨h, rfl⟩

theorem TaskSlot.Keeps.trans {a b c : TaskSlot} (h : a.Keeps b) (h' : b.Keeps c) : a.Keeps c := by
  intro ha
  obtain ⟨hb, hfds⟩ := h ha
  obtain ⟨hc, hfds'⟩ := h' hb
  exact ⟨hc, hfds'.trans hfds⟩

theorem TaskSlot.Keeps.of_state {a b : TaskSlot} (hused : b.used = a.used)
    (hstate : b.state = .zombie → a.state = .zombie) (hfds : b.fds = a.fds) : a.Keeps b :=
  fun h => ⟨⟨hused.trans h.1, fun hb => h.2 (hstate hb)⟩, hfds⟩

theorem wakeRel_keeps : WakeRel fun _ a b => a.Keeps b where
  refl _ := .refl
  trans := .trans
  detach _ _ h := ⟨h, rfl⟩
  wake _ _ := .of_state rfl TaskState.noConfusion rfl

namespace KeepsTables

variable {own : Option TaskIdx} {s t u : Sched}

protected theorem refl (own : Option TaskIdx) (s : Sched) : KeepsTables own s s :=
  fun _ _ => .refl _

protected theorem trans (h : KeepsTables own s t) (h' : KeepsTables own t u) :
    KeepsTables own s u := fun k hk => (h k hk).trans (h' k hk)

theorem of_slotwise (h : Slotwise (fun _ a b => a.Keeps b) s t) : KeepsTables own s t :=
  fun k _ => h.slot k

/-- An operation that changes one slot. -/
theorem of_update {i : TaskIdx} {b : TaskSlot} (htasks : t.tasks = Function.update s.tasks i b)
    (hb : own ≠ some i → (s.tasks i).Keeps b) : KeepsTables own s t := by
  intro k hk
  rw [htasks]
  by_cases hki : k = i
  · subst hki
    rw [Function.update_self]
    exact hb hk
  · rw [Function.update_of_ne hki]
    exact .refl _

/-! ## The scheduler -/

theorem yield (s : Sched) : KeepsTables own s (schedYield s) := by
  unfold schedYield
  split
  · exact .refl _ _
  · refine of_update rfl fun _ => .of_state rfl ?_ rfl
    dsimp only
    split_ifs
    · exact False.elim
    · exact id

theorem sleepTicks (ticks : BitVec 32) (s : Sched) :
    KeepsTables own s (schedSleepTicks ticks s) := by
  unfold schedSleepTicks
  split
  · exact .refl _ _
  · rename_i i _
    by_cases hidle : (s.tasks i).isIdle = true
    · rw [if_pos hidle]
      exact .refl _ _
    · rw [if_neg hidle]
      exact of_update rfl fun _ => .of_state rfl TaskState.noConfusion rfl

theorem waitqSleep (q : WaitqRef) (timeout : BitVec 32) (s : Sched) :
    KeepsTables own s (schedWaitqSleep q timeout s) := by
  unfold schedWaitqSleep
  split
  · exact .refl _ _
  · rename_i i _
    by_cases hidle : (s.tasks i).isIdle = true
    · rw [if_pos hidle]
      exact .refl _ _
    · rw [if_neg hidle]
      refine .trans (of_slotwise (.detach wakeRel_keeps i s)) ?_
      exact of_update rfl fun _ => .of_state rfl TaskState.noConfusion rfl

theorem enterTask (i : TaskIdx) (s : Sched) : KeepsTables own s (enterTask i s) :=
  of_update rfl fun _ => .of_state rfl TaskState.noConfusion rfl

theorem leaveTask (i : TaskIdx) (s : Sched) : KeepsTables own s (leaveTask i s) := by
  unfold LampVm.leaveTask
  split_ifs
  · exact of_update rfl fun _ => .of_state rfl TaskState.noConfusion rfl
  · exact .refl _ _

/-- A new task gets a slot in which there is none. -/
theorem spawn (entry : Option ℕ) (s : Sched) : KeepsTables own s (schedSpawn entry s).2 := by
  unfold schedSpawn
  split
  · rename_i i halloc
    have hunused := (schedAllocSlot_eq_some halloc).2
    exact of_update (Function.update_idem _ _ _) fun _ h =>
      absurd (h.1.symm.trans hunused) (by decide)
  · exact .refl _ _

/-- A task that is reaped has ended. -/
theorem tryReapChild (tid pid : BitVec 32) (s : Sched) :
    KeepsTables own s (schedTryReapChild tid pid s).2.2 := by
  unfold schedTryReapChild
  dsimp only
  split
  · rename_i j hfind
    have hdead := List.find?_some hfind
    simp only [Bool.and_eq_true, decide_eq_true_eq] at hdead
    exact of_update rfl fun _ h => absurd hdead.2 h.2
  · split_ifs
    · exact .refl _ _
    · exact .refl _ _

theorem waitpid (pid options : BitVec 32) (s : Sched) :
    KeepsTables own s (schedWaitpid pid options s).2.2 := by
  unfold schedWaitpid
  split
  · exact .refl _ _
  · rename_i i _
    have hreaped : KeepsTables own s (schedTryReapChild (s.tasks i).tid pid s).2.2 :=
      tryReapChild _ _ _
    by_cases hidle : (s.tasks i).isIdle = true
    · rw [if_pos hidle]
      exact .refl _ _
    · rw [if_neg hidle]
      dsimp only
      split_ifs
      · exact hreaped
      · exact hreaped
      · exact hreaped.trans (waitqSleep _ _ _)

/-- A task ends itself and wakes its parent. -/
theorem exitCode (code : BitVec 32) (s : Sched) :
    KeepsTables (schedCurrentSlot s) s (schedExitCode code s) := by
  unfold schedExitCode
  split
  · exact .refl _ _
  · rename_i i hcurrent
    rw [hcurrent]
    by_cases hidle : (s.tasks i).isIdle = true
    · rw [if_pos hidle]
      exact .refl _ _
    · rw [if_neg hidle]
      have hdead : KeepsTables (some i) s ((schedDetachWaitq i s).setTask i
          { (schedDetachWaitq i s).tasks i with
            fds := ((schedDetachWaitq i s).tasks i).fds.closeAllFds, exitCode := code,
            state := .zombie, wakeTick := 0, quantumUsed := 0 }) :=
        .trans (of_slotwise (.detach wakeRel_keeps i s)) (of_update rfl fun h => absurd rfl h)
      dsimp only
      split_ifs
      · split
        · exact hdead
        · exact hdead.trans (of_slotwise (.resched (.wakeAll wakeRel_keeps _ _)))
      · exact hdead

/-- A call of the scheduler other than the exit. -/
theorem call {c : SchedCall} (hc : ∀ code, c ≠ .exitCode code) (s : Sched) :
    KeepsTables own s (c.run s) := by
  cases c with
  | yield => exact yield s
  | sleepTicks ticks => exact sleepTicks ticks s
  | waitqSleep q timeout => exact waitqSleep q timeout s
  | wakeOne q => exact of_slotwise (.wakeOne wakeRel_keeps q s)
  | wakeAll q => exact of_slotwise (.wakeAll wakeRel_keeps q s)
  | spawn entry => exact spawn entry s
  | exitCode code => exact absurd rfl (hc code)
  | waitpid pid options => exact waitpid pid options s

theorem tick (s : Sched) : KeepsTables own s (scheduleTick s) :=
  of_slotwise (.tick wakeRel_keeps (fun _ _ _ h => ⟨h, rfl⟩) s)

theorem select (s : Sched) : KeepsTables own s (schedRunEnter s) := by
  have htasks : (runSelect s).tasks = s.tasks := by
    unfold runSelect
    split_ifs
    · rfl
    · rfl
  have hselect : KeepsTables own s (runSelect s) := by
    intro k _
    rw [htasks]
    exact .refl _
  unfold schedRunEnter
  dsimp only
  split_ifs
  · exact hselect.trans (enterTask _ _)
  · exact hselect

theorem pump (s : Sched) : KeepsTables own s (schedPumpEnter s) := by
  unfold schedPumpEnter
  dsimp only
  split_ifs
  · exact of_update rfl fun _ => .of_state rfl TaskState.noConfusion rfl
  · exact .refl _ _

theorem op {o : SchedOp} (hallowed : (CallLabel.sched o).allowed)
    (hexit : ∀ code, o ≠ .call (.exitCode code)) (s : Sched) : KeepsTables own s (o.run s) := by
  cases o with
  | call c => exact call (fun code hc => hexit code (congrArg SchedOp.call hc)) s
  | fds table => exact hallowed.elim
  | tick => exact tick s
  | select => exact select s
  | pump => exact pump s
  | leave i prev => exact leaveTask i s

end KeepsTables

/-! ## System calls -/

/-- The calls that change descriptors, and the one that ends the task. -/
def descriptorCalls : List Sys := [.close, .dup, .dup2, .fcntl, .open, .socket, .exit]

/-- What a call of `SYS_OPEN` opens, when it comes to that. -/
def openTarget (pathAddr flags : BitVec 32) (memory : Bytes) : Option (BitVec 32) :=
  if flags &&& ~~~(sysOAccmode ||| sysONonblock ||| sysOCreat ||| sysOTrunc) ≠ 0 then none
  else if ¬ (flags &&& sysOAccmode = 0 ∨ flags &&& sysOAccmode = 1 ∨ flags &&& sysOAccmode = 2) then
    none
  else if pathAddr = 0 then none
  else (abiUserReadCstr memory (fsPathCap - 1) pathAddr).bind openPathToSpecial

/-- What a call does to the table of the task that makes it. -/
def tableCall (regs : SyscallRegs) (memory : Bytes) (table : FdTable) : FdTable :=
  match sysOfNr regs.nr with
  | some .close => (table.close regs.arg0).2
  | some .dup => (table.dup regs.arg0).2
  | some .dup2 => (table.dup2 regs.arg0 regs.arg1).2
  | some .fcntl =>
    if regs.arg1 = 2 then (table.fcntlSetfd regs.arg0 regs.arg2).2
    else if regs.arg1 = 4 then (table.fcntlSetfl regs.arg0 regs.arg2).2
    else table
  | some .open =>
    match openTarget regs.arg0 regs.arg1 memory with
    | none => table
    | some special =>
      (table.openSpecial special (regs.arg1 &&& (sysOAccmode ||| sysONonblock))).2
  | some .socket =>
    if ¬ (regs.arg0 = 1 ∨ regs.arg0 = 2 ∨ regs.arg0 = 10) then table
    else if regs.arg1 &&& 0x0F = 0 then table
    else
      (table.openSpecial 4 (if regs.arg1 &&& 0x800 ≠ 0 then schedFdORdwr ||| schedFdONonblock
        else schedFdORdwr)).2
  | _ => table

/-- The calls of the task in slot `i`, with the memory that each of them finds. -/
def ownCalls (i : TaskIdx) (s : CallState) : CallLabel → List (SyscallRegs × Bytes)
  | .call _ regs => if schedCurrentSlot s.data.sched = some i then [(regs, s.data.memory)] else []
  | _ => []

/-- The table that a list of calls leads to. -/
def tableAfter (table : FdTable) (calls : List (SyscallRegs × Bytes)) : FdTable :=
  calls.foldl (fun table c => tableCall c.1 c.2 table) table

/-- The current task ends. -/
def CallLabel.exits : CallLabel → Prop
  | .call _ regs => sysOfNr regs.nr = some .exit
  | .sched (.call (.exitCode _)) => True
  | _ => False

namespace KeepsTables

variable {own : Option TaskIdx} {d : KernelData}

theorem read (len : BitVec 32) (nonblock : Bool) (t : Tty) :
    KeepsTables own t.sched (consoleRead len nonblock t).2.2.sched := by
  have hblocked (t : Tty) : KeepsTables own t.sched (consoleReadBlocked nonblock t).2.2.sched := by
    unfold consoleReadBlocked
    split_ifs
    · exact .refl _ _
    · exact waitqSleep _ _ _
  unfold consoleRead
  dsimp only
  split_ifs
  · exact .refl _ _
  · exact hblocked t
  · exact .refl _ _
  · exact .refl _ _
  · exact hblocked { t with
      console := (consoleReadLoop t.console.canonical len.toNat t.console).2.2 }

theorem readConsole {bufAddr len : BitVec 32} (hbuf : abiPtrRangeOk bufAddr len = true)
    (nonblock : Bool) (s : IoState) : KeepsTables own s.tty.sched
      (readConsole bufAddr len nonblock len.toNat 0 s).2.tty.sched := by
  by_cases hnothing : s.tty.console.TakesNothing
  · rw [(readConsole_of_nothing hbuf nonblock hnothing).2, readOnce_tty]
    exact read _ _ _
  · rw [readConsole_of_bytes hbuf nonblock hnothing]
    exact .refl _ _

theorem sysRead (fd bufAddr len flags : BitVec 32) (s : IoState) :
    KeepsTables own s.tty.sched (sysRead fd bufAddr len flags s).2.tty.sched := by
  unfold LampVm.sysRead
  dsimp only
  split_ifs with hread hlen hrange
  · exact .refl _ _
  · exact .refl _ _
  · exact .refl _ _
  · exact .refl _ _
  · exact .refl _ _
  · exact readConsole (not_not.mp (not_or.mp hrange).2) _ s
  · exact .refl _ _

theorem nanosleep (reqAddr remAddr : BitVec 32) (d : KernelData) :
    KeepsTables own d.sched (sysNanosleep reqAddr remAddr d).2.sched := by
  unfold sysNanosleep
  split
  · exact .refl _ _
  · rename_i req hreq
    by_cases hvalid : req.valid = true
    · rw [if_neg (not_not.mpr hvalid)]
      split
      · exact .refl _ _
      · rename_i m hm
        by_cases hnow : req.sec = 0 ∧ req.nsec = 0
        · rw [if_pos hnow]
          exact .refl _ _
        · have hperiod : ¬ schedTickPeriodUs = 0 := by decide
          rw [if_neg hnow, if_neg hperiod]
          exact sleepTicks _ _
    · rw [if_pos hvalid]
      exact .refl _ _

theorem writeConsole {bufAddr len : BitVec 32} {memory : Bytes} {n : ℕ} {total : BitVec 32}
    {t : Tty} : (LampVm.writeConsole bufAddr len memory n total t).2.sched = t.sched := by
  have hscreen (src : List (BitVec 8)) (t : Tty) : (consoleWrite src t).2.sched = t.sched := by
    change (src.foldl (fun t ch => consoleFbPutc ch t) t).sched = t.sched
    induction src generalizing t with
    | nil => rfl
    | cons ch src ih => exact ih _
  induction n generalizing total t with
  | zero => rfl
  | succ n ih =>
    unfold LampVm.writeConsole
    split_ifs
    · dsimp only
      split
      · rfl
      · split_ifs
        · exact hscreen _ _
        · rw [ih]
          exact hscreen _ _
    · rfl

theorem write (fd bufAddr len : BitVec 32) (d : KernelData) :
    (sysWrite fd bufAddr len d).2.sched = d.sched := by
  unfold sysWrite
  dsimp only
  split_ifs
  · rfl
  · rfl
  · rfl
  · rfl
  · exact writeConsole
  · rfl

theorem ttySetmode (fd lflag : BitVec 32) (d : KernelData) :
    (sysTtySetmode fd lflag d).2.sched = d.sched := by
  unfold sysTtySetmode
  split_ifs <;> rfl

/-- The calls on descriptors change the table of the current task. -/
theorem sysFd (result : ℤ → SyscallResult) (f : FdTable → ℤ × FdTable) (d : KernelData) :
    KeepsTables (schedCurrentSlot d.sched) d.sched (sysFd result f d).2.sched := by
  change KeepsTables _ _ (onFds f d.sched).2
  unfold onFds
  split
  · exact .refl _ _
  · rename_i i hcurrent
    rw [hcurrent]
    exact of_update rfl fun h => absurd rfl h

theorem fcntl (fd cmd arg : BitVec 32) (d : KernelData) :
    KeepsTables (schedCurrentSlot d.sched) d.sched (sysFcntl fd cmd arg d).2.sched := by
  unfold sysFcntl
  split_ifs
  · exact .refl _ _
  · exact sysFd _ _ d
  · exact .refl _ _
  · exact sysFd _ _ d
  · exact .refl _ _

theorem opened (pathAddr flags : BitVec 32) (d : KernelData) :
    KeepsTables (schedCurrentSlot d.sched) d.sched (sysOpen pathAddr flags d).2.sched := by
  unfold sysOpen
  dsimp only
  split_ifs
  · exact .refl _ _
  · exact .refl _ _
  · split
    · exact .refl _ _
    · split
      · exact .refl _ _
      · exact sysFd _ _ d
  · exact .refl _ _

theorem socket (domain type : BitVec 32) (d : KernelData) :
    KeepsTables (schedCurrentSlot d.sched) d.sched (sysSocket domain type d).2.sched := by
  unfold sysSocket
  split_ifs
  · exact .refl _ _
  · exact sysFd _ _ d
  · exact sysFd _ _ d
  · exact .refl _ _

theorem sleepRound (timeoutMs startTick : BitVec 32) (d : KernelData) :
    KeepsTables own d.sched (sleepRound timeoutMs startTick d).2.sched := by
  unfold LampVm.sleepRound
  dsimp only
  split_ifs
  all_goals first
    | exact .refl _ _
    | exact sleepTicks _ _

theorem waitReadable (ticks : BitVec 32) (nonblock : Bool) (t : Tty) :
    KeepsTables own t.sched (consoleWaitReadable ticks nonblock t).2.sched := by
  unfold consoleWaitReadable
  split_ifs
  · exact .refl _ _
  · exact .refl _ _
  · exact waitqSleep _ _ _

theorem readyOrWait (ready timeoutMs startTick : BitVec 32) (waitReadStdin : Bool)
    (next : Waiting) (d : KernelData) : KeepsTables own d.sched
      (readyOrWait ready timeoutMs startTick waitReadStdin next d).2.sched := by
  unfold LampVm.readyOrWait
  dsimp only
  split_ifs
  all_goals first
    | exact .refl _ _
    | exact waitReadable _ _ _
    | exact sleepTicks _ _

theorem round (regs : SyscallRegs) (place : Waiting) (d : KernelData) :
    KeepsTables own d.sched (place.round regs d).2.sched := by
  cases place with
  | waitpid status =>
    have h : KeepsTables own d.sched (waitpidRetry (waitpidTarget regs.arg0) regs.arg1 regs.arg2
        status ⟨d.sched, d.memory⟩).2.sched := by
      unfold waitpidRetry
      generalize (if regs.arg2 &&& sysWaitpidWnohang ≠ 0 then schedWaitpidWnohang else 0) = options
      have hwait : KeepsTables own d.sched
        (schedWaitpid (waitpidTarget regs.arg0) options d.sched).2.2 := waitpid _ _ _
      dsimp only
      split_ifs
      · split
        · exact hwait
        · exact hwait
      all_goals exact hwait
    change KeepsTables _ _ (waitpidRound regs status d).2.sched
    unfold waitpidRound
    generalize waitpidRetry (waitpidTarget regs.arg0) regs.arg1 regs.arg2 status
      ⟨d.sched, d.memory⟩ = p at h
    obtain ⟨r | status', s⟩ := p
    · exact h
    · exact h
  | sleep startTick => exact sleepRound _ _ d
  | poll startTick =>
    change KeepsTables _ _ (pollRound regs.arg0 regs.arg1 regs.arg2 startTick d).2.sched
    unfold pollRound
    split
    · exact .refl _ _
    · rename_i ready memory hscan
      exact readyOrWait ready _ _ _ _ (d.setMemory memory)
  | select startTick inRead inWrite inExcept =>
    change KeepsTables _ _ (selectRound regs startTick inRead inWrite inExcept d).2.sched
    unfold selectRound
    split
    · exact .refl _ _
    · split
      · exact .refl _ _
      · rename_i memory hsets
        exact readyOrWait _ _ _ _ _ (d.setMemory memory)

end KeepsTables

/-! ## Steps -/

section Steps

variable {own : Option TaskIdx} {raw : RawClocks} {regs : SyscallRegs} {d : KernelData}
  {i : TaskIdx}

/-- The calls that do not end the task, apart from its own table. -/
theorem keepsTables_startCall (hown : (∃ c ∈ descriptorCalls, sysOfNr regs.nr = some c) →
    own = schedCurrentSlot d.sched) : KeepsTables own d.sched (startCall raw regs d).2.sched := by
  have hsame (p : Round × KernelData) (hp : p.2.sched = d.sched) :
      KeepsTables own d.sched p.2.sched := hp ▸ .refl _ _
  have hcurrent {c : Sys} (hnr : sysOfNr regs.nr = some c) (hc : c ∈ descriptorCalls) :
      own = schedCurrentSlot d.sched := hown ⟨c, hc, hnr⟩
  unfold startCall
  split
  case h_3 => exact .yield _
  case h_4 => exact .sleepTicks _ _
  case h_5 hnr => exact hcurrent hnr (by decide) ▸ .exitCode _ _
  case h_7 => exact .nanosleep _ _ d
  case h_8 => exact .sysRead _ _ _ _ ⟨d.tty, d.memory⟩
  case h_9 => exact hsame _ (KeepsTables.write _ _ _ d)
  case h_13 => exact hsame _ (KeepsTables.ttySetmode _ _ d)
  case h_18 hnr => exact hcurrent hnr (by decide) ▸ .sysFd statusResult (·.close regs.arg0) d
  case h_19 hnr => exact hcurrent hnr (by decide) ▸ .sysFd fdResult (·.dup regs.arg0) d
  case h_20 hnr => exact hcurrent hnr (by decide) ▸ .sysFd fdResult (·.dup2 regs.arg0 regs.arg1) d
  case h_21 hnr => exact hcurrent hnr (by decide) ▸ .fcntl _ _ _ d
  case h_22 hnr => exact hcurrent hnr (by decide) ▸ .opened _ _ d
  case h_23 hnr => exact hcurrent hnr (by decide) ▸ .socket _ _ d
  all_goals exact hsame _ rfl

theorem tasks_sysFd (hcurrent : schedCurrentSlot d.sched = some i) (result : ℤ → SyscallResult)
    (f : FdTable → ℤ × FdTable) : (sysFd result f d).2.sched.tasks i =
      { d.sched.tasks i with fds := (f (d.sched.tasks i).fds).2 } := by
  change (onFds f d.sched).2.tasks i = _
  unfold onFds
  rw [hcurrent]
  exact Function.update_self _ _ _

/-- A call on descriptors does to the caller's table what it stands for. -/
theorem tableCall_startCall (hcurrent : schedCurrentSlot d.sched = some i) {c : Sys}
    (hnr : sysOfNr regs.nr = some c) (hc : c ∈ descriptorCalls) (hexit : c ≠ .exit) :
    (startCall raw regs d).2.sched.tasks i =
      { d.sched.tasks i with fds := tableCall regs d.memory (d.sched.tasks i).fds } := by
  have hfd := tasks_sysFd hcurrent
  unfold startCall tableCall
  rw [hnr]
  cases c
  case close => exact hfd statusResult (·.close regs.arg0)
  case dup => exact hfd fdResult (·.dup regs.arg0)
  case dup2 => exact hfd fdResult (·.dup2 regs.arg0 regs.arg1)
  case fcntl =>
    change (sysFcntl regs.arg0 regs.arg1 regs.arg2 d).2.sched.tasks i = _
    unfold sysFcntl
    dsimp only
    by_cases h1 : regs.arg1 = 1
    · rw [if_pos h1, h1]
      rfl
    · rw [if_neg h1]
      by_cases h2 : regs.arg1 = 2
      · rw [if_pos h2, if_pos h2]
        exact hfd _ _
      · rw [if_neg h2, if_neg h2]
        by_cases h3 : regs.arg1 = 3
        · rw [if_pos h3, h3]
          rfl
        · rw [if_neg h3]
          by_cases h4 : regs.arg1 = 4
          · rw [if_pos h4, if_pos h4]
            exact hfd _ _
          · rw [if_neg h4, if_neg h4]
  case «open» =>
    change (sysOpen regs.arg0 regs.arg1 d).2.sched.tasks i = _
    unfold sysOpen openTarget
    dsimp only
    by_cases hflags :
        regs.arg1 &&& ~~~(sysOAccmode ||| sysONonblock ||| sysOCreat ||| sysOTrunc) ≠ 0
    · rw [if_pos hflags, if_pos hflags]
    · rw [if_neg hflags, if_neg hflags]
      by_cases hmode : regs.arg1 &&& sysOAccmode = 0 ∨ regs.arg1 &&& sysOAccmode = 1 ∨
          regs.arg1 &&& sysOAccmode = 2
      · rw [if_neg (not_not.mpr hmode), if_neg (not_not.mpr hmode)]
        by_cases haddr : regs.arg0 = 0
        · rw [if_pos haddr, if_pos haddr]
        · rw [if_neg haddr, if_neg haddr]
          cases hpath : abiUserReadCstr d.memory (fsPathCap - 1) regs.arg0 with
          | none => rfl
          | some path =>
            cases hspecial : openPathToSpecial path with
            | none =>
              dsimp only [Option.bind_some]
              rw [hspecial]
            | some special =>
              dsimp only [Option.bind_some]
              rw [hspecial]
              exact hfd _ _
      · rw [if_pos hmode, if_pos hmode]
  case socket =>
    change (sysSocket regs.arg0 regs.arg1 d).2.sched.tasks i = _
    unfold sysSocket
    dsimp only
    by_cases hdomain : ¬ (regs.arg0 = 1 ∨ regs.arg0 = 2 ∨ regs.arg0 = 10)
    · rw [if_pos hdomain, if_pos hdomain]
    · rw [if_neg hdomain, if_neg hdomain]
      by_cases htype : regs.arg1 &&& 0x0F = 0
      · rw [if_pos htype, if_pos htype]
      · rw [if_neg htype, if_neg htype]
        exact hfd fdResult (·.openSpecial 4 _)
  case exit => exact absurd rfl hexit
  all_goals exact absurd hc (by decide)

end Steps

/-! ## Runs -/

theorem tableCall_of_not_mem {regs : SyscallRegs}
    (h : ∀ c ∈ descriptorCalls, sysOfNr regs.nr ≠ some c) (memory : Bytes) (table : FdTable) :
    tableCall regs memory table = table := by
  unfold tableCall
  cases hnr : sysOfNr regs.nr with
  | none => rfl
  | some c =>
    have hc : c ∉ descriptorCalls := fun hc => h c hc hnr
    cases c
    case close | dup | dup2 | fcntl | «open» | socket => exact absurd (by decide) hc
    all_goals rfl

section Runs

variable {s t : CallState} {l : CallLabel} {i : TaskIdx}

theorem next_call_sched (s : CallState) (raw : RawClocks) (regs : SyscallRegs) :
    (s.next (.call raw regs)).data.sched = (startCall raw regs s.data).2.sched := by
  unfold CallState.next CallState.round
  dsimp only
  generalize startCall raw regs s.data = p
  obtain ⟨r | place, d⟩ := p
  · rfl
  · rfl

theorem next_resume_keeps (own : Option TaskIdx) (s : CallState) :
    KeepsTables own s.data.sched (s.next .resume).data.sched := by
  unfold CallState.next CallState.round
  cases s.pending with
  | nil => exact .refl _ _
  | cons p rest =>
    have h : KeepsTables own s.data.sched (p.place.round p.regs s.data).2.sched :=
      KeepsTables.round p.regs p.place s.data
    dsimp only
    generalize p.place.round p.regs s.data = q at h
    obtain ⟨r | place, d⟩ := q
    · exact h
    · exact h

/-- The step lemma. -/
theorem table_next (hl : l.allowed) (halive : (s.data.sched.tasks i).Alive) :
    (l.exits ∧ schedCurrentSlot s.data.sched = some i) ∨
      ((s.next l).data.sched.tasks i).Alive ∧ ((s.next l).data.sched.tasks i).fds =
        tableAfter (s.data.sched.tasks i).fds (ownCalls i s l) := by
  cases l with
  | call raw regs =>
    rw [next_call_sched]
    by_cases hcurrent : schedCurrentSlot s.data.sched = some i
    · have hlog : ownCalls i s (.call raw regs) = [(regs, s.data.memory)] := if_pos hcurrent
      rw [hlog]
      change _ ∨ _ ∧ _ = tableCall regs s.data.memory _
      by_cases hcall : ∃ c ∈ descriptorCalls, sysOfNr regs.nr = some c
      · obtain ⟨c, hc, hnr⟩ := hcall
        by_cases hexit : c = .exit
        · exact .inl ⟨hnr.trans (congrArg some hexit), hcurrent⟩
        · rw [tableCall_startCall hcurrent hnr hc hexit]
          exact .inr ⟨halive, rfl⟩
      · rw [tableCall_of_not_mem fun c hc hnr => hcall ⟨c, hc, hnr⟩]
        have hkeeps : KeepsTables none s.data.sched (startCall raw regs s.data).2.sched :=
          keepsTables_startCall fun h => absurd h hcall
        exact .inr (hkeeps i nofun halive)
    · have hlog : ownCalls i s (.call raw regs) = [] := if_neg hcurrent
      rw [hlog]
      exact .inr (keepsTables_startCall (fun _ => rfl) i hcurrent halive)
  | nullCall => exact .inr ⟨halive, rfl⟩
  | resume => exact .inr (next_resume_keeps none s i nofun halive)
  | sched op =>
    by_cases hexit : ∃ code, op = .call (.exitCode code)
    · obtain ⟨code, rfl⟩ := hexit
      by_cases hcurrent : schedCurrentSlot s.data.sched = some i
      · exact .inl ⟨trivial, hcurrent⟩
      · exact .inr (KeepsTables.exitCode code s.data.sched i hcurrent halive)
    · have hkeeps : KeepsTables none s.data.sched (op.run s.data.sched) :=
        KeepsTables.op hl (fun code hop => hexit ⟨code, hop⟩) s.data.sched
      exact .inr (hkeeps i nofun halive)
  | feed ch =>
    refine .inr ?_
    change ((consoleRxFeed ch s.data.tty).sched.tasks i).Alive ∧
      ((consoleRxFeed ch s.data.tty).sched.tasks i).fds = _
    obtain hwake | ⟨hsame, -⟩ := feed_cases ch s.data.tty
    · rw [hwake]
      exact (Slotwise.wakeOne wakeRel_keeps .console s.data.sched).slot i halive
    · rw [hsame]
      exact ⟨halive, rfl⟩
  | store memory => exact .inr ⟨halive, rfl⟩

/-- The task's table is what the calls make of it, or the task has ended in the run. -/
def PrivateTable (s : CallState) (i : TaskIdx) (ls : List CallLabel) (t : CallState)
    (calls : List (SyscallRegs × Bytes)) : Prop :=
  ((t.data.sched.tasks i).Alive ∧
    (t.data.sched.tasks i).fds = tableAfter (s.data.sched.tasks i).fds calls) ∨
  ∃ ls₁ l ls₂ u, ls = ls₁ ++ l :: ls₂ ∧ Run syscallRuns s ls₁ u ∧ l.exits ∧
    schedCurrentSlot u.data.sched = some i

theorem privateTable_run {q : CallState × List (SyscallRegs × Bytes)} {ls : List CallLabel}
    (halive : (s.data.sched.tasks i).Alive)
    (hr : Run (syscallRuns.logged (ownCalls i)) (s, []) ls q) :
    Run syscallRuns s ls q.1 ∧ PrivateTable s i ls q.1 q.2 := by
  induction hr with
  | nil => exact ⟨.nil, .inl ⟨halive, rfl⟩⟩
  | @snoc ls l u v hq hstep ih =>
    obtain ⟨hrun, hu⟩ := ih
    obtain ⟨⟨hl, hv⟩, hlog⟩ := hstep
    refine ⟨hrun.snoc ⟨hl, hv⟩, ?_⟩
    obtain ⟨hualive, hufds⟩ | ⟨ls₁, k, ls₂, w, rfl, hw, hk, hcurrent⟩ := hu
    · obtain ⟨hexit, hcurrent⟩ | ⟨hvalive, hvfds⟩ := table_next hl hualive
      · exact .inr ⟨ls, l, [], u.1, rfl, hrun, hexit, hcurrent⟩
      · have happend : tableAfter (s.data.sched.tasks i).fds v.2 =
            tableAfter (tableAfter (s.data.sched.tasks i).fds u.2) (ownCalls i u.1 l) := by
          rw [hlog]
          exact List.foldl_append
        refine .inl ⟨hv ▸ hvalive, ?_⟩
        rw [hv, hvfds, hufds, happend]
    · exact .inr ⟨ls₁, k, ls₂ ++ [l], w, by simp, hw, hk, hcurrent⟩

end Runs

/-- As long as a task has not ended, its table is what its own calls have made of it, in any
run of all tasks, the scheduler and the interrupts. -/
theorem descriptor_table_private {s t : CallState} {ls : List CallLabel} {i : TaskIdx}
    {calls : List (SyscallRegs × Bytes)}
    (hr : Run (syscallRuns.logged (ownCalls i)) (s, []) ls (t, calls))
    (halive : (s.data.sched.tasks i).Alive) : PrivateTable s i ls t calls :=
  (privateTable_run halive hr).2

/-- The first task duplicates its input. -/
theorem descriptor_table_private_dup : ∃ t, PrivateTable bootedKernel 0
    [.call ⟨0, 0, 0⟩ ⟨17, 0, 0, 0, 0, 0, 0⟩] t [(⟨17, 0, 0, 0, 0, 0, 0⟩, fun _ => 0)] := by
  have hcurrent : schedCurrentSlot bootedKernel.data.sched = some 0 := by decide
  have hlog : ownCalls 0 bootedKernel (.call ⟨0, 0, 0⟩ ⟨17, 0, 0, 0, 0, 0, 0⟩) =
      [(⟨17, 0, 0, 0, 0, 0, 0⟩, fun _ => 0)] := by
    rw [ownCalls, if_pos hcurrent]
    rfl
  have hstep : (syscallRuns.logged (ownCalls 0)).step (bootedKernel, [])
      (.call ⟨0, 0, 0⟩ ⟨17, 0, 0, 0, 0, 0, 0⟩)
      (bootedKernel.next (.call ⟨0, 0, 0⟩ ⟨17, 0, 0, 0, 0, 0, 0⟩),
        [(⟨17, 0, 0, 0, 0, 0, 0⟩, fun _ => 0)]) := ⟨⟨trivial, rfl⟩, hlog.symm⟩
  exact ⟨_, descriptor_table_private (.snoc .nil hstep) ⟨rfl, by decide⟩⟩

end LampVm
