import LampVm.Dispatch
import LampVm.Readiness

/-!
# The error convention of the system calls

User code takes a result of `-1` for a failure and looks at the published error number
only then. The calls that return flags never return all ones, because the kernel keeps
only a few bits of each set of flags: an invariant of the runs. One call breaks the
convention: `SYS_GETPID` of a task whose slot was given up while it waited.
-/
namespace LampVm

open ByteOrder Transition

/-! ## Flags -/

/-- All flags of the kernel lie in the lower twelve bits. -/
def SmallFlags (v : BitVec 32) : Prop := v.toNat < 2 ^ 12

instance (v : BitVec 32) : Decidable (SmallFlags v) := inferInstanceAs (Decidable (_ < _))

theorem SmallFlags.and_right {v : BitVec 32} (h : SmallFlags v) (w : BitVec 32) :
    SmallFlags (v &&& w) := by
  rw [SmallFlags, BitVec.toNat_and]
  exact lt_of_le_of_lt Nat.and_le_left h

theorem SmallFlags.and_left {w : BitVec 32} (h : SmallFlags w) (v : BitVec 32) :
    SmallFlags (v &&& w) := by
  rw [SmallFlags, BitVec.toNat_and]
  exact lt_of_le_of_lt Nat.and_le_right h

theorem SmallFlags.or {v w : BitVec 32} (hv : SmallFlags v) (hw : SmallFlags w) :
    SmallFlags (v ||| w) := by
  rw [SmallFlags, BitVec.toNat_or]
  exact Nat.or_lt_two_pow hv hw

theorem SmallFlags.ne {v : BitVec 32} (h : SmallFlags v) : v ≠ -1 := by
  rintro rfl
  revert h
  decide

/-! ## Descriptor tables -/

structure FdTable.FlagsOk (t : FdTable) : Prop where
  status : ∀ i, SmallFlags (t.ofiles i).statusFlags
  fd : ∀ d, SmallFlags (t.fdtab d).fdFlags

section Tables

variable {t : FdTable}

theorem smallFlags_zero : SmallFlags 0 := by decide

theorem flagsOk_zero : FdTable.zero.FlagsOk := ⟨fun _ => smallFlags_zero, fun _ => smallFlags_zero⟩

theorem flagsOk_initStdio : FdTable.initStdio.FlagsOk := by
  constructor
  · decide
  · decide

theorem FdTable.FlagsOk.setFile (h : t.FlagsOk) (i : Fin schedMaxFds) {file : Ofile}
    (hfile : SmallFlags file.statusFlags) :
    FdTable.FlagsOk { t with ofiles := Function.update t.ofiles i file } := by
  refine ⟨fun j => ?_, h.fd⟩
  change SmallFlags (Function.update t.ofiles i file j).statusFlags
  by_cases hj : j = i
  · rwa [hj, Function.update_self]
  · rw [Function.update_of_ne hj]
    exact h.status j

theorem FdTable.FlagsOk.setFd (h : t.FlagsOk) (d : Fin schedMaxFds) {ent : Fdent}
    (hent : SmallFlags ent.fdFlags) :
    FdTable.FlagsOk { t with fdtab := Function.update t.fdtab d ent } := by
  refine ⟨h.status, fun j => ?_⟩
  change SmallFlags (Function.update t.fdtab d ent j).fdFlags
  by_cases hj : j = d
  · rwa [hj, Function.update_self]
  · rw [Function.update_of_ne hj]
    exact h.fd j

theorem FdTable.FlagsOk.closeFd (h : t.FlagsOk) (fd : BitVec 32) : (t.closeFd fd).2.FlagsOk := by
  unfold FdTable.closeFd
  split
  · exact h
  · rename_i d i _
    dsimp only
    refine (h.setFd d smallFlags_zero).setFile i ?_
    generalize (if (t.ofiles i).refs ≠ 0 then (t.ofiles i).refs - 1 else (t.ofiles i).refs) = refs
    split_ifs
    · exact smallFlags_zero
    · exact h.status i

theorem FdTable.FlagsOk.closeAllFds (h : t.FlagsOk) : t.closeAllFds.FlagsOk := by
  unfold FdTable.closeAllFds
  generalize List.finRange schedMaxFds = l
  induction l generalizing t with
  | nil => exact h
  | cons d l ih =>
    rw [List.foldl_cons]
    split_ifs
    · exact ih (h.closeFd _)
    · exact ih h

theorem FdTable.FlagsOk.close (h : t.FlagsOk) (fd : BitVec 32) : (t.close fd).2.FlagsOk := by
  have hclose := h.closeFd fd
  unfold FdTable.close
  split <;> rename_i heq <;> rwa [heq] at hclose

theorem FdTable.FlagsOk.share (h : t.FlagsOk) (o d i : Fin schedMaxFds) :
    (t.share o d i).FlagsOk :=
  (h.setFd d smallFlags_zero).setFile i (h.status i)

theorem FdTable.FlagsOk.dup (h : t.FlagsOk) (fd : BitVec 32) : (t.dup fd).2.FlagsOk := by
  unfold FdTable.dup
  split
  · exact h
  · split
    · exact h
    · exact h.share _ _ _

theorem FdTable.FlagsOk.dup2 (h : t.FlagsOk) (oldfd newfd : BitVec 32) :
    (t.dup2 oldfd newfd).2.FlagsOk := by
  unfold FdTable.dup2
  by_cases hfd : 0 ≤ newfd.toInt ∧ newfd.toNat < schedMaxFds
  · rw [dif_pos hfd]
    split
    · exact h
    · dsimp only
      split_ifs
      · exact h
      · exact (h.closeFd newfd).share _ _ _
      · exact h.share _ _ _
  · rw [dif_neg hfd]
    exact h

theorem FdTable.FlagsOk.openSpecial (h : t.FlagsOk) (special flags : BitVec 32) :
    (t.openSpecial special flags).2.FlagsOk := by
  have hmask : SmallFlags (schedFdOAccmode ||| schedFdONonblock) := by decide
  unfold FdTable.openSpecial
  split
  · exact h
  · split
    · exact h
    · split
      · exact h
      · exact (h.setFd _ smallFlags_zero).setFile _ (hmask.and_left flags)

theorem FdTable.FlagsOk.fcntlSetfd (h : t.FlagsOk) (fd flags : BitVec 32) :
    (t.fcntlSetfd fd flags).2.FlagsOk := by
  have hmask : SmallFlags schedFdCloexec := by decide
  unfold FdTable.fcntlSetfd
  split
  · exact h
  · exact h.setFd _ (hmask.and_left flags)

theorem FdTable.FlagsOk.fcntlSetfl (h : t.FlagsOk) (fd flags : BitVec 32) :
    (t.fcntlSetfl fd flags).2.FlagsOk := by
  have hmask : SmallFlags schedFdONonblock := by decide
  unfold FdTable.fcntlSetfl
  split
  · exact h
  · exact h.setFile _ (((h.status _).and_right _).or (hmask.and_left flags))

end Tables

/-! ## The scheduler keeps the flags of every task -/

def FdFlags (s : Sched) : Prop := ∀ i, (s.tasks i).fds.FlagsOk

section Scheduler

variable {s : Sched}

theorem FdFlags.setTask (h : FdFlags s) (i : TaskIdx) {b : TaskSlot} (hb : b.fds.FlagsOk) :
    FdFlags (s.setTask i b) := by
  intro j
  change (Function.update s.tasks i b j).fds.FlagsOk
  by_cases hj : j = i
  · rwa [hj, Function.update_self]
  · rw [Function.update_of_ne hj]
    exact h j

/-- A slot's flags stay in order, whatever the scheduler assigns to it. -/
theorem callRel_flagsOk : CallRel fun _ a b => a.fds.FlagsOk → b.fds.FlagsOk where
  refl _ _ := id
  trans h h' := h' ∘ h
  detach _ _ := id
  wake _ _ := id
  yield _ _ _ := id
  sleep _ _ _ := id
  block _ _ _ _ := id
  exit _ _ _ h := h.closeAllFds
  spawn _ _ _ _ _ _ _ := flagsOk_initStdio
  clear _ _ _ _ := flagsOk_zero
  enter _ _ _ := id
  leave _ _ := id

theorem FdFlags.of_slotwise {t : Sched} (h : FdFlags s)
    (hslots : Slotwise (fun _ a b => a.fds.FlagsOk → b.fds.FlagsOk) s t) : FdFlags t :=
  fun i => hslots.slot i (h i)

theorem FdFlags.wakeOne (h : FdFlags s) (q : WaitqRef) : FdFlags (schedWaitqWakeOne q s) :=
  h.of_slotwise (.wakeOne callRel_flagsOk.toWakeRel q s)

theorem FdFlags.yield (h : FdFlags s) : FdFlags (schedYield s) :=
  h.of_slotwise (.yield callRel_flagsOk s)

theorem FdFlags.sleepTicks (h : FdFlags s) (ticks : BitVec 32) : FdFlags (schedSleepTicks ticks s) :=
  h.of_slotwise (.sleepTicks callRel_flagsOk ticks s)

theorem FdFlags.waitqSleep (h : FdFlags s) (q : WaitqRef) (timeout : BitVec 32) :
    FdFlags (schedWaitqSleep q timeout s) :=
  h.of_slotwise (.waitqSleep callRel_flagsOk q timeout s)

theorem FdFlags.exitCode (h : FdFlags s) (code : BitVec 32) : FdFlags (schedExitCode code s) :=
  h.of_slotwise (.exitCode callRel_flagsOk code s)

theorem FdFlags.waitpid (h : FdFlags s) (pid options : BitVec 32) :
    FdFlags (schedWaitpid pid options s).2.2 :=
  h.of_slotwise (.waitpid callRel_flagsOk pid options s)

theorem FdFlags.enter (h : FdFlags s) (i : TaskIdx) : FdFlags (enterTask i s) :=
  h.of_slotwise (.enterTask callRel_flagsOk i s)

theorem FdFlags.op (h : FdFlags s) {op : SchedOp} (hop : (CallLabel.sched op).allowed) :
    FdFlags (op.run s) := by
  cases op with
  | call c => exact h.of_slotwise (.call callRel_flagsOk c s)
  | fds table => exact hop.elim
  | tick => exact h.of_slotwise (.tick callRel_flagsOk.toWakeRel (fun _ _ _ => id) s)
  | select =>
    have hselect : FdFlags (runSelect s) := by
      unfold runSelect
      split_ifs
      · exact h
      · exact h
    change FdFlags (schedRunEnter s)
    unfold schedRunEnter
    dsimp only
    split_ifs
    · exact hselect.enter _
    · exact hselect
  | pump =>
    change FdFlags (schedPumpEnter s)
    unfold schedPumpEnter
    dsimp only
    split_ifs
    · exact FdFlags.enter (s := { s with currentIdx := schedPickNextIdx s }) h _
    · exact h
  | leave i prev => exact h.of_slotwise (t := leaveTask i s) (.leaveTask callRel_flagsOk i s)

end Scheduler

/-! ## The data of the calls -/

structure TtyFlags (t : Tty) : Prop where
  lflag : SmallFlags t.console.lflag
  fds : FdFlags t.sched

section Data

variable {t : Tty} {d : KernelData}

theorem TtyFlags.popped (h : TtyFlags t) : SmallFlags (consoleRxPopLastEditable t.console).2.lflag := by
  unfold consoleRxPopLastEditable
  dsimp only
  split_ifs
  · exact h.lflag
  · exact h.lflag
  · exact h.lflag

/-- Echo sends characters to the screen. -/
theorem TtyFlags.echoDataChar (h : TtyFlags t) (ch : BitVec 8) :
    TtyFlags (consoleEchoDataChar ch t) := by
  unfold consoleEchoDataChar
  split_ifs
  · exact h
  · exact ⟨h.lflag, h.fds⟩
  · exact h

theorem TtyFlags.echoBackspace (h : TtyFlags t) : TtyFlags (consoleEchoBackspace t) := by
  unfold consoleEchoBackspace
  split_ifs
  · exact h
  · exact ⟨h.lflag, h.fds⟩

theorem TtyFlags.echoIntr (h : TtyFlags t) : TtyFlags (consoleEchoIntr t) := by
  unfold consoleEchoIntr
  split_ifs
  · exact h
  · exact ⟨h.lflag, h.fds⟩

theorem TtyFlags.erase (h : TtyFlags t) (n : ℕ) : TtyFlags (consoleErase n t) := by
  induction n generalizing t with
  | zero => exact h
  | succ n ih =>
    have hpop := h.popped
    unfold consoleErase
    split
    · exact h
    · rename_i c heq
      rw [heq] at hpop
      refine ih (TtyFlags.echoBackspace ⟨hpop, h.fds⟩)

theorem TtyFlags.enqueue (h : TtyFlags t) (ch : BitVec 8) (echo : Bool) :
    TtyFlags (consoleRxEnqueueChar ch echo t) := by
  have hwake (t : Tty) (h : TtyFlags t) :
      TtyFlags { t with sched := schedWaitqWakeOne .console t.sched } := ⟨h.lflag, h.fds.wakeOne _⟩
  unfold consoleRxEnqueueChar
  dsimp only
  by_cases hfull : t.console.head + 1 = t.console.tail
  · rw [if_pos hfull]
    exact ⟨h.lflag, h.fds⟩
  · rw [if_neg hfull]
    apply hwake
    have hstored (c : Console) (hc : c.lflag = t.console.lflag) : TtyFlags { t with console := c } :=
      ⟨by rw [hc]; exact h.lflag, h.fds⟩
    cases echo with
    | true =>
      apply TtyFlags.echoDataChar
      apply hstored
      split_ifs <;> rfl
    | false =>
      apply hstored
      split_ifs <;> rfl

theorem TtyFlags.feed (h : TtyFlags t) (ch : BitVec 8) : TtyFlags (consoleRxFeed ch t) := by
  have hpop := h.popped
  unfold consoleRxFeed
  generalize (if ch = asciiCr then asciiLf else ch) = ch
  dsimp only
  split_ifs
  · exact ((h.erase _).echoIntr).enqueue _ _
  · exact h.erase _
  · split
    · exact h
    · rename_i c heq
      rw [heq] at hpop
      exact TtyFlags.echoBackspace ⟨hpop, h.fds⟩
  · exact h.enqueue _ _
  · exact h
  · exact h.enqueue _ _

theorem TtyFlags.waitReadable (h : TtyFlags t) (ticks : BitVec 32) (nonblock : Bool) :
    TtyFlags (consoleWaitReadable ticks nonblock t).2 := by
  unfold consoleWaitReadable
  split_ifs
  · exact h
  · exact h
  · exact ⟨h.lflag, h.fds.waitqSleep _ _⟩

theorem TtyFlags.read (h : TtyFlags t) (len : BitVec 32) (nonblock : Bool) :
    TtyFlags (consoleRead len nonblock t).2.2 := by
  have hblocked (t : Tty) (h : TtyFlags t) : TtyFlags (consoleReadBlocked nonblock t).2.2 := by
    unfold consoleReadBlocked
    split_ifs
    · exact h
    · exact ⟨h.lflag, h.fds.waitqSleep _ _⟩
  have hloop : TtyFlags { t with
      console := (consoleReadLoop t.console.canonical len.toNat t.console).2.2 } :=
    ⟨by rw [readLoop_lflag]; exact h.lflag, h.fds⟩
  unfold consoleRead
  dsimp only
  split_ifs
  · exact h
  · exact hblocked t h
  · exact hloop
  · exact hloop
  · exact hblocked _ hloop

theorem TtyFlags.write (h : TtyFlags t) (src : List (BitVec 8)) :
    TtyFlags (consoleWrite src t).2 := by
  change TtyFlags (src.foldl (fun t ch => consoleFbPutc ch t) t)
  induction src generalizing t with
  | nil => exact h
  | cons ch src ih => exact ih ⟨h.lflag, h.fds⟩

end Data

/-! ## Results -/

/-- All ones and an error number come together. -/
def SyscallResult.Conventional (r : SyscallResult) : Prop := r.ret = -1 ↔ r.err ≠ .ok

theorem conventional_failure {err : Errno} (h : err ≠ .ok) : (syscallFailure err).Conventional :=
  iff_of_true rfl h

theorem conventional_ok {v : BitVec 32} (h : v ≠ -1) :
    SyscallResult.Conventional ⟨v, .ok⟩ :=
  iff_of_false h (not_not.mpr rfl)

theorem conventional_zero : SyscallResult.Conventional ⟨0, .ok⟩ := conventional_ok (by decide)

theorem ne_of_le_memSize {v : BitVec 32} (h : v.toNat ≤ kernelMemSize.toNat) : v ≠ -1 := by
  rintro rfl
  revert h
  decide

theorem ofInt_ne {rc : ℤ} (hnonneg : 0 ≤ rc) (hlt : rc < 2 ^ 31) : BitVec.ofInt 32 rc ≠ -1 := by
  intro h
  have htoInt := congrArg BitVec.toInt h
  rw [BitVec.toInt_ofInt, Int.bmod_eq_of_le (by omega) (by omega)] at htoInt
  have : (-1 : BitVec 32).toInt = -1 := by decide
  omega

/-- The part of a call that a label executes follows the convention if it ends the call,
and keeps the flags. -/
structure RoundOk (p : Round × KernelData) : Prop where
  conventional : ∀ r, p.1 = .inl r → r.Conventional
  flags : TtyFlags p.2.tty

section Rounds

variable {r : SyscallResult} {place : Waiting} {d : KernelData} {t : Tty}

theorem roundOk_inl (hr : r.Conventional) (hd : TtyFlags d.tty) : RoundOk (.inl r, d) := by
  refine ⟨fun r' h => ?_, hd⟩
  obtain rfl := Sum.inl.inj h
  exact hr

theorem roundOk_inr (hd : TtyFlags d.tty) : RoundOk (.inr place, d) := by
  refine ⟨fun r h => ?_, hd⟩
  cases h

theorem roundOk_failure {err : Errno} (herr : err ≠ .ok) (hd : TtyFlags d.tty) :
    RoundOk (.inl (syscallFailure err), d) :=
  roundOk_inl (conventional_failure herr) hd

theorem TtyFlags.setSched (h : TtyFlags d.tty) {s : Sched} (hs : FdFlags s) :
    TtyFlags (d.setSched s).tty := ⟨h.lflag, hs⟩

theorem roundOk_nanosleep (h : TtyFlags d.tty) (reqAddr remAddr : BitVec 32) :
    RoundOk (finished (sysNanosleep reqAddr remAddr d)) := by
  unfold sysNanosleep
  split
  · exact roundOk_failure (by decide) h
  · rename_i req _
    by_cases hvalid : req.valid = true
    · rw [if_neg (not_not.mpr hvalid)]
      split
      · exact roundOk_failure (by decide) h
      · dsimp only
        split_ifs
        · exact roundOk_inl conventional_zero h
        · exact roundOk_failure (by decide) h
        · exact roundOk_inl conventional_zero (h.setSched (h.fds.sleepTicks _))
        · exact roundOk_inl conventional_zero (h.setSched (h.fds.sleepTicks _))
    · rw [if_pos hvalid]
      exact roundOk_failure (by decide) h

/-! ### Descriptors -/

theorem errnoFromSchedFdRc_ne (rc : ℤ) : errnoFromSchedFdRc rc ≠ .ok := by
  unfold errnoFromSchedFdRc
  split_ifs <;> decide

theorem conventional_fdResult {rc : ℤ} (h : rc < schedMaxFds) : (fdResult rc).Conventional := by
  unfold fdResult
  split_ifs with hneg
  · exact conventional_failure (errnoFromSchedFdRc_ne rc)
  · have hmax : (schedMaxFds : ℤ) = 32 := rfl
    exact conventional_ok (ofInt_ne (by omega) (by omega))

theorem conventional_statusResult (rc : ℤ) : (statusResult rc).Conventional := by
  unfold statusResult
  split_ifs
  · exact conventional_failure (errnoFromSchedFdRc_ne rc)
  · exact conventional_zero

/-- A call on the descriptors of the current task, when there is one. -/
theorem roundOk_sysFd {result : ℤ → SyscallResult} {f : FdTable → ℤ × FdTable} (h : TtyFlags d.tty)
    (hnone : (result schedFdEbadf).Conventional) (hrc : ∀ t, (result (f t).1).Conventional)
    (hf : ∀ t : FdTable, t.FlagsOk → (f t).2.FlagsOk) : RoundOk (finished (sysFd result f d)) := by
  unfold sysFd onFds
  cases schedCurrentSlot d.sched with
  | none => exact roundOk_inl hnone h
  | some i => exact roundOk_inl (hrc _) (h.setSched (FdFlags.setTask h.fds i (hf _ (h.fds i))))

theorem fd_lt (d : Fin schedMaxFds) : (d.val : ℤ) < schedMaxFds := by exact_mod_cast d.isLt

theorem schedFd_error_lt : schedFdEbadf < schedMaxFds ∧ schedFdEmfile < schedMaxFds ∧
    schedFdEinval < schedMaxFds := by decide

theorem dup_lt (t : FdTable) (fd : BitVec 32) : (t.dup fd).1 < schedMaxFds := by
  unfold FdTable.dup
  split
  · exact schedFd_error_lt.1
  · split
    · exact schedFd_error_lt.2.1
    · exact fd_lt _

theorem dup2_lt (t : FdTable) (oldfd newfd : BitVec 32) :
    (t.dup2 oldfd newfd).1 < schedMaxFds := by
  unfold FdTable.dup2
  by_cases hfd : 0 ≤ newfd.toInt ∧ newfd.toNat < schedMaxFds
  · have hnew : newfd.toInt < schedMaxFds := by
      have hlt : newfd.toNat < 32 := hfd.2
      rw [BitVec.toInt_eq_toNat_of_lt (by omega)]
      exact_mod_cast hfd.2
    rw [dif_pos hfd]
    split
    · exact schedFd_error_lt.1
    · dsimp only
      split_ifs
      · exact hnew
      · exact hnew
      · exact hnew
  · rw [dif_neg hfd]
    exact schedFd_error_lt.2.2

theorem openSpecial_lt (t : FdTable) (special flags : BitVec 32) :
    (t.openSpecial special flags).1 < schedMaxFds := by
  unfold FdTable.openSpecial
  split
  · exact schedFd_error_lt.2.2
  · split
    · exact schedFd_error_lt.2.1
    · split
      · exact schedFd_error_lt.2.1
      · exact fd_lt _

theorem roundOk_openSpecial (h : TtyFlags d.tty) (special flags : BitVec 32) :
    RoundOk (finished (sysFd fdResult (·.openSpecial special flags) d)) :=
  roundOk_sysFd h (conventional_fdResult (by decide))
    (fun t => conventional_fdResult (openSpecial_lt t special flags))
    (fun _ ht => ht.openSpecial special flags)

theorem roundOk_open (h : TtyFlags d.tty) (pathAddr flags : BitVec 32) :
    RoundOk (finished (sysOpen pathAddr flags d)) := by
  unfold sysOpen
  dsimp only
  split_ifs
  · exact roundOk_failure (by decide) h
  · exact roundOk_failure (by decide) h
  · split
    · exact roundOk_failure (by decide) h
    · split
      · exact roundOk_failure (by decide) h
      · exact roundOk_openSpecial h _ _
  · exact roundOk_failure (by decide) h

theorem roundOk_socket (h : TtyFlags d.tty) (domain type : BitVec 32) :
    RoundOk (finished (sysSocket domain type d)) := by
  unfold sysSocket
  dsimp only
  split_ifs
  · exact roundOk_failure (by decide) h
  · exact roundOk_openSpecial h _ _
  · exact roundOk_openSpecial h _ _
  · exact roundOk_failure (by decide) h

theorem conventional_flagsResult {f : FdTable → ℤ × Option (BitVec 32)} (h : TtyFlags t)
    (hf : ∀ table : FdTable, table.FlagsOk → SmallFlags ((f table).2.getD 0)) :
    (flagsResult f t).Conventional := by
  unfold flagsResult Tty.fds
  obtain ⟨-, hnone⟩ | ⟨-, hslot⟩ := schedCurrentSlot_cases t.sched
  · rw [hnone]
    exact conventional_failure (by decide)
  · rw [hslot]
    dsimp only [Option.map_some]
    split_ifs
    · exact conventional_failure (errnoFromSchedFdRc_ne _)
    · exact conventional_ok (hf _ (h.fds _)).ne

theorem roundOk_fcntl (h : TtyFlags d.tty) (fd cmd arg : BitVec 32) :
    RoundOk (finished (sysFcntl fd cmd arg d)) := by
  unfold sysFcntl
  split_ifs
  · refine roundOk_inl (conventional_flagsResult h fun table htable => ?_) h
    unfold FdTable.fcntlGetfd
    rw [if_neg (by decide)]
    split
    · exact smallFlags_zero
    · exact htable.fd _
  · exact roundOk_sysFd h (conventional_statusResult _) (fun _ => conventional_statusResult _)
      (fun _ ht => ht.fcntlSetfd fd arg)
  · refine roundOk_inl (conventional_flagsResult h fun table htable => ?_) h
    unfold FdTable.fcntlGetfl
    rw [if_neg (by decide)]
    split
    · exact smallFlags_zero
    · exact htable.status _
  · exact roundOk_sysFd h (conventional_statusResult _) (fun _ => conventional_statusResult _)
      (fun _ ht => ht.fcntlSetfl fd arg)
  · exact roundOk_failure (by decide) h

theorem roundOk_socketCall (h : TtyFlags d.tty) (fd : BitVec 32) {err : Errno} (herr : err ≠ .ok) :
    RoundOk (.inl (sysSocketCall fd err d.tty), d) := by
  unfold sysSocketCall
  split_ifs
  · exact roundOk_failure (by decide) h
  · exact roundOk_failure herr h
  · exact roundOk_failure (by decide) h

theorem roundOk_ttyGetmode (h : TtyFlags d.tty) (fd : BitVec 32) :
    RoundOk (.inl (sysTtyGetmode fd d.tty), d) := by
  unfold sysTtyGetmode
  split_ifs
  · exact roundOk_inl (conventional_ok h.lflag.ne) h
  · exact roundOk_failure (by decide) h

theorem roundOk_ttySetmode (h : TtyFlags d.tty) (fd lflag : BitVec 32) :
    RoundOk (finished (sysTtySetmode fd lflag d)) := by
  have hsupported : SmallFlags ttyLflagSupported := by decide
  have hset : SmallFlags (consoleTtySetLflag lflag d.tty).console.lflag :=
    hsupported.and_left lflag
  unfold sysTtySetmode
  split_ifs
  · exact roundOk_inl (conventional_ok hset.ne) ⟨hset, h.fds⟩
  · exact roundOk_failure (by decide) h

/-! ### Reading and writing -/

theorem conventional_readZeros {bufAddr len : BitVec 32} (hlen : len.toNat ≤ kernelMemSize.toNat)
    {n : ℕ} {copied : BitVec 32} (hle : copied.toNat ≤ len.toNat) (memory : Bytes) :
    (readZeros bufAddr len n copied memory).1.Conventional := by
  have hdone (v : BitVec 32) (hv : v.toNat ≤ len.toNat) : SyscallResult.Conventional ⟨v, .ok⟩ :=
    conventional_ok (ne_of_le_memSize (hv.trans hlen))
  induction n generalizing copied memory with
  | zero => exact hdone copied hle
  | succ n ih =>
    unfold readZeros
    by_cases hlt : copied < len
    · rw [if_pos hlt]
      obtain ⟨-, hchunk⟩ := chunkSize_spec hlt
      dsimp only
      split
      · exact conventional_failure (by decide)
      · refine ih ?_ _
        rw [BitVec.toNat_add_of_lt (by have := len.isLt; omega)]
        exact hchunk
    · rw [if_neg hlt]
      exact hdone copied hle

/-- A read blocks, or returns how many bytes it took. -/
theorem consoleRead_cases (len : BitVec 32) (nonblock : Bool) (t : Tty) :
    (consoleRead len nonblock t).1 = consoleIoBlocked ∨
      ∃ k : ℕ, (consoleRead len nonblock t).1 = k ∧ k ≤ len.toNat := by
  have hblocked (t : Tty) : (consoleReadBlocked nonblock t).1 = consoleIoBlocked ∨
      ∃ k : ℕ, (consoleReadBlocked nonblock t).1 = k ∧ k ≤ len.toNat := by
    cases nonblock with
    | true => exact .inr ⟨0, rfl, Nat.zero_le _⟩
    | false => exact .inl rfl
  unfold consoleRead
  dsimp only
  split_ifs
  · exact .inr ⟨0, rfl, Nat.zero_le _⟩
  · exact hblocked t
  · exact .inr ⟨_, rfl, readLoop_length_le⟩
  · exact .inr ⟨0, rfl, Nat.zero_le _⟩
  · exact hblocked _

theorem readConsole_ok {bufAddr len : BitVec 32} (hlen : len.toNat ≤ kernelMemSize.toNat)
    (nonblock : Bool) {n : ℕ} {copied : BitVec 32} (hle : copied.toNat ≤ len.toNat) {s : IoState}
    (hs : TtyFlags s.tty) :
    (readConsole bufAddr len nonblock n copied s).1.Conventional ∧
      TtyFlags (readConsole bufAddr len nonblock n copied s).2.tty := by
  have hdone (v : BitVec 32) (hv : v.toNat ≤ len.toNat) : SyscallResult.Conventional ⟨v, .ok⟩ :=
    conventional_ok (ne_of_le_memSize (hv.trans hlen))
  induction n generalizing copied s with
  | zero => exact ⟨hdone copied hle, hs⟩
  | succ n ih =>
    unfold readConsole
    by_cases hlt : copied < len
    · rw [if_pos hlt]
      obtain ⟨-, hchunk⟩ := chunkSize_spec hlt
      dsimp only
      generalize (if copied ≠ 0 then true else nonblock) = wait
      have hread := hs.read (chunkSize len copied) wait
      obtain hblocked | ⟨k, hk, hkle⟩ := consoleRead_cases (chunkSize len copied) wait s.tty
      · rw [if_pos hblocked]
        split_ifs
        · exact ⟨conventional_failure (by decide), hread⟩
        · exact ⟨hdone copied hle, hread⟩
      · have hne : (k : ℤ) ≠ consoleIoBlocked := by
          have : consoleIoBlocked = -1 := rfl
          omega
        rw [hk, if_neg hne]
        by_cases hzero : (k : ℤ) = 0
        · rw [if_pos hzero]
          split_ifs
          · exact ⟨hdone copied hle, hread⟩
          · exact ⟨conventional_failure (by decide), hread⟩
          · exact ⟨conventional_zero, hread⟩
        · rw [if_neg hzero]
          have hlenlt := len.isLt
          have hgot : (BitVec.ofInt 32 (k : ℤ)).toNat = k := by
            rw [BitVec.ofInt_natCast, BitVec.toNat_ofNat, Nat.mod_eq_of_lt (by omega)]
          have hnext : (copied + BitVec.ofInt 32 (k : ℤ)).toNat ≤ len.toNat := by
            rw [BitVec.toNat_add_of_lt (by omega), hgot]
            omega
          split
          · exact ⟨conventional_failure (by decide), hread⟩
          · split_ifs
            · exact ⟨hdone _ hnext, hread⟩
            · exact ih hnext hread
    · rw [if_neg hlt]
      exact ⟨hdone copied hle, hs⟩

theorem le_memSize_of_range {addr len : BitVec 32} (h : ¬ (addr = 0 ∨ ¬ abiPtrRangeOk addr len)) :
    len.toNat ≤ kernelMemSize.toNat := by
  have hrange := abiPtrRangeOk_iff.mp (not_not.mp (not_or.mp h).2)
  exact (Nat.le_add_left _ _).trans hrange.2.2

theorem sysRead_ok (fd bufAddr len flags : BitVec 32) {s : IoState} (hs : TtyFlags s.tty) :
    (sysRead fd bufAddr len flags s).1.Conventional ∧
      TtyFlags (sysRead fd bufAddr len flags s).2.tty := by
  unfold sysRead
  dsimp only
  split_ifs with hread hlen hrange
  · exact ⟨conventional_zero, hs⟩
  · exact ⟨conventional_failure (by decide), hs⟩
  · exact ⟨conventional_zero, hs⟩
  · exact ⟨conventional_readZeros (le_memSize_of_range hrange) (Nat.zero_le _) _, hs⟩
  · exact ⟨conventional_failure (by decide), hs⟩
  · exact readConsole_ok (le_memSize_of_range hrange) _ (Nat.zero_le _) hs
  · exact ⟨conventional_failure (by decide), hs⟩

theorem writeChunk_spec {len total : BitVec 32} (h : total < len) :
    total.toNat + (writeChunk len total).toNat ≤ len.toNat := by
  have hlt : total.toNat < len.toNat := h
  have hsub : (len - total).toNat = len.toNat - total.toNat :=
    BitVec.toNat_sub_of_le (le_of_lt hlt)
  have hsize : writeBufSize.toNat = 128 := rfl
  unfold writeChunk
  split_ifs with hbig
  · have hgt : writeBufSize.toNat < (len - total).toNat := hbig
    omega
  · omega

theorem length_abiUserReadBytes {addr len : BitVec 32} {memory : Bytes} {bytes : List (BitVec 8)}
    (h : abiUserReadBytes addr len memory = some bytes) : bytes.length = len.toNat := by
  unfold abiUserReadBytes at h
  split_ifs at h with hzero
  · rw [← Option.some.inj h, hzero]
    rfl
  · rw [← Option.some.inj h, List.length_map, List.length_range]

theorem writeConsole_ok {bufAddr len : BitVec 32} (hlen : len.toNat ≤ kernelMemSize.toNat)
    (memory : Bytes) {n : ℕ} {total : BitVec 32} (hle : total.toNat ≤ len.toNat)
    (ht : TtyFlags t) :
    (writeConsole bufAddr len memory n total t).1.Conventional ∧
      TtyFlags (writeConsole bufAddr len memory n total t).2 := by
  have hdone (v : BitVec 32) (hv : v.toNat ≤ len.toNat) : SyscallResult.Conventional ⟨v, .ok⟩ :=
    conventional_ok (ne_of_le_memSize (hv.trans hlen))
  induction n generalizing total t with
  | zero => exact ⟨hdone total hle, ht⟩
  | succ n ih =>
    unfold writeConsole
    by_cases hlt : total < len
    · rw [if_pos hlt]
      dsimp only
      split
      · exact ⟨conventional_failure (by decide), ht⟩
      · rename_i bytes hbytes
        have hchunk := writeChunk_spec hlt
        have hwritten : (consoleWrite bytes t).1 = writeChunk len total := by
          change BitVec.ofNat 32 bytes.length = _
          rw [length_abiUserReadBytes hbytes, BitVec.ofNat_toNat, BitVec.setWidth_eq]
        have hnext : (total + (consoleWrite bytes t).1).toNat ≤ len.toNat := by
          have hlenlt := len.isLt
          rw [hwritten, BitVec.toNat_add_of_lt (by omega)]
          exact hchunk
        split_ifs
        · exact ⟨hdone _ hnext, ht.write bytes⟩
        · exact ih hnext (ht.write bytes)
    · rw [if_neg hlt]
      exact ⟨hdone total hle, ht⟩

theorem roundOk_write (h : TtyFlags d.tty) (fd bufAddr len : BitVec 32) :
    RoundOk (finished (sysWrite fd bufAddr len d)) := by
  unfold sysWrite
  dsimp only
  split_ifs with hwrite hlen hrange
  · exact roundOk_inl conventional_zero h
  · exact roundOk_failure (by decide) h
  · exact roundOk_inl (conventional_ok (ne_of_le_memSize (le_memSize_of_range hrange))) h
  · exact roundOk_failure (by decide) h
  · have hwritten : (writeConsole bufAddr len d.memory len.toNat 0 d.tty).1.Conventional ∧
        TtyFlags (writeConsole bufAddr len d.memory len.toNat 0 d.tty).2 :=
      writeConsole_ok (le_memSize_of_range hrange) d.memory (Nat.zero_le _) h
    exact roundOk_inl hwritten.1 hwritten.2
  · exact roundOk_failure (by decide) h

/-! ### Clocks -/

theorem conventional_storeResult (stored : Option Bytes) (memory : Bytes) :
    (storeResult stored memory).1.Conventional := by
  unfold storeResult
  split
  · exact conventional_failure (by decide)
  · exact conventional_zero

theorem conventional_clockGetres (clockId addr : BitVec 32) (memory : Bytes) :
    (sysClockGetres clockId addr memory).1.Conventional := by
  unfold sysClockGetres
  split_ifs
  · exact conventional_storeResult _ _
  · exact conventional_zero
  · exact conventional_failure (by decide)

theorem conventional_clockGettime (offset : RealtimeOffset) (raw : RawClocks)
    (clockId addr : BitVec 32) (memory : Bytes) :
    (sysClockGettime offset raw clockId addr memory).1.Conventional := by
  unfold sysClockGettime
  split_ifs
  · exact conventional_failure (by decide)
  · split
    · exact conventional_failure (by decide)
    · split
      · exact conventional_failure (by decide)
      · exact conventional_storeResult _ _

theorem conventional_clockSettime (raw : RawClocks) (clockId addr : BitVec 32) (memory : Bytes)
    (offset : RealtimeOffset) : (sysClockSettime raw clockId addr memory offset).1.Conventional := by
  unfold sysClockSettime
  split_ifs
  · exact conventional_failure (by decide)
  · exact conventional_failure (by decide)
  · exact conventional_failure (by decide)
  · split
    · exact conventional_failure (by decide)
    · split
      · exact conventional_failure (by decide)
      · exact conventional_zero

theorem conventional_gettimeofday (offset : RealtimeOffset) (raw : RawClocks)
    (tvAddr tzAddr : BitVec 32) (memory : Bytes) :
    (sysGettimeofday offset raw tvAddr tzAddr memory).1.Conventional := by
  unfold sysGettimeofday
  split_ifs
  · exact conventional_failure (by decide)
  · split
    · exact conventional_failure (by decide)
    · split
      · exact conventional_failure (by decide)
      · unfold gettimeofdayZone
        split_ifs
        · split
          · exact conventional_failure (by decide)
          · exact conventional_storeResult _ _
        · exact conventional_zero

/-! ### Calls that wait -/

theorem roundOk_sleepRound (h : TtyFlags d.tty) (timeoutMs startTick : BitVec 32) :
    RoundOk (sleepRound timeoutMs startTick d) := by
  unfold sleepRound
  dsimp only
  generalize (if d.sched.ticks - startTick ≥ timeoutMsToTicks timeoutMs then (0 : BitVec 32)
    else timeoutMsToTicks timeoutMs - (d.sched.ticks - startTick)) = remaining
  split_ifs
  · exact roundOk_inl conventional_zero h
  · exact roundOk_inr (h.setSched (h.fds.sleepTicks _))
  · exact roundOk_inr (h.setSched (h.fds.sleepTicks _))

theorem roundOk_readyOrWait {ready : BitVec 32} (hready : ready ≠ -1) (h : TtyFlags d.tty)
    (timeoutMs startTick : BitVec 32) (waitReadStdin : Bool) (next : Waiting) :
    RoundOk (readyOrWait ready timeoutMs startTick waitReadStdin next d) := by
  unfold readyOrWait
  dsimp only
  generalize (if timeoutMs.toInt > 0 then timeoutMsToTicks timeoutMs - (d.sched.ticks - startTick)
    else (0 : BitVec 32)) = remaining
  generalize (if remaining ≠ 0 then remaining else 1) = ticks
  split_ifs
  · exact roundOk_inl (conventional_ok hready) h
  · exact roundOk_inl conventional_zero h
  · exact roundOk_inl conventional_zero h
  · exact roundOk_inr (h.waitReadable _ _)
  · exact roundOk_inr (h.setSched (h.fds.sleepTicks _))
  · exact roundOk_inr (h.setSched (h.fds.sleepTicks _))

/-- A pass counts every entry at most once. -/
theorem pollScan_ready_le {fdsAddr : BitVec 32} {n : ℕ} {i ready : BitVec 32} {memory memory' : Bytes}
    {ready' : BitVec 32} (hlt : ready.toNat + n < 2 ^ 32)
    (h : pollScan fdsAddr t n i ready memory = (some ready', memory')) :
    ready'.toNat ≤ ready.toNat + n := by
  induction n generalizing i ready memory with
  | zero =>
    rw [← Option.some.inj (Prod.mk.inj h).1]
    exact le_rfl
  | succ n ih =>
    rw [pollScan] at h
    dsimp only at h
    split_ifs at h with hrange hset
    · have hsucc : (ready + 1).toNat = ready.toNat + 1 :=
        BitVec.toNat_add_of_lt (by change ready.toNat + 1 < _; omega)
      have hnext := ih (by rw [hsucc]; omega) h
      rw [hsucc] at hnext
      omega
    · have hnext := ih (by omega) h
      omega
    · cases (Prod.mk.inj h).1

theorem roundOk_pollRound (h : TtyFlags d.tty) (fdsAddr : BitVec 32) {nfds : BitVec 32}
    (hnfds : nfds.toNat ≤ kernelMemSize.toNat) (timeoutMs startTick : BitVec 32) :
    RoundOk (pollRound fdsAddr nfds timeoutMs startTick d) := by
  unfold pollRound
  split
  · exact roundOk_failure (by decide) h
  · rename_i ready memory heq
    have hready := pollScan_ready_le (by have := nfds.isLt; change 0 + _ < _; omega) heq
    exact roundOk_readyOrWait (d := d.setMemory memory)
      (ne_of_le_memSize (by change _ ≤ 0 + _ at hready; omega)) h _ _ _ _

theorem countBits_le {k : ℕ} {v n : BitVec 32} (hlt : n.toNat + k < 2 ^ 32) :
    (countBits k v n).toNat ≤ n.toNat + k := by
  induction k generalizing v n with
  | zero => exact le_rfl
  | succ k ih =>
    have hbit : (v &&& 1).toNat ≤ 1 := by
      rw [BitVec.toNat_and]
      exact Nat.and_le_right
    have hsum : (n + (v &&& 1)).toNat = n.toNat + (v &&& 1).toNat :=
      BitVec.toNat_add_of_lt (by omega)
    unfold countBits
    split_ifs
    · have hnext := ih (v := v >>> 1) (n := n + (v &&& 1)) (by omega)
      omega
    · omega

theorem roundOk_selectRound (h : TtyFlags d.tty) (regs : SyscallRegs)
    (startTick inRead inWrite inExcept : BitVec 32) :
    RoundOk (selectRound regs startTick inRead inWrite inExcept d) := by
  have hcount (v : BitVec 32) : (countBitsU32 v).toNat ≤ 32 :=
    countBits_le (k := 32) (n := 0) (by decide)
  unfold selectRound
  split
  · exact roundOk_failure (by decide) h
  · rename_i out _
    split
    · exact roundOk_failure (by decide) h
    · rename_i memory _
      refine roundOk_readyOrWait (d := d.setMemory memory) (ne_of_le_memSize ?_) h _ _ _ _
      have hread := hcount out.outRead
      have hwrite := hcount out.outWrite
      have hexcept := hcount 0
      have hsize : kernelMemSize.toNat = 0x04000000 := rfl
      rw [BitVec.toNat_add, BitVec.toNat_add, hsize]
      omega

theorem schedWaitpid_lt (pid options : BitVec 32) (s : Sched) :
    (schedWaitpid pid options s).1 < 2 ^ 31 := by
  have hreap (tid : BitVec 32) : (schedTryReapChild tid pid s).1 < 2 ^ 31 := by
    unfold schedTryReapChild
    dsimp only
    split
    · rename_i i _
      exact BitVec.toInt_lt
    · split_ifs
      · exact (by decide : (0 : ℤ) < 2 ^ 31)
      · exact (by decide : schedWaitpidNoChild < 2 ^ 31)
  unfold schedWaitpid
  split
  · exact (by decide : schedWaitpidNoChild < 2 ^ 31)
  · rename_i i _
    have hreaped := hreap (s.tasks i).tid
    by_cases hidle : (s.tasks i).isIdle = true
    · rw [if_pos hidle]
      exact (by decide : schedWaitpidNoChild < 2 ^ 31)
    · rw [if_neg hidle]
      dsimp only
      split_ifs
      · exact hreaped
      · exact (by decide : (0 : ℤ) < 2 ^ 31)
      · exact (by decide : schedWaitpidBlocked < 2 ^ 31)

theorem waitpidRetry_ok (pid statusAddr options status : BitVec 32) {x : SyscallState}
    (hx : FdFlags x.sched) :
    (∀ r, (waitpidRetry pid statusAddr options status x).1 = .inl r → r.Conventional) ∧
      FdFlags (waitpidRetry pid statusAddr options status x).2.sched := by
  unfold waitpidRetry
  dsimp only
  generalize (if options &&& sysWaitpidWnohang ≠ 0 then schedWaitpidWnohang else 0) = schedOptions
  have hflags := hx.waitpid pid schedOptions
  have hlt := schedWaitpid_lt pid schedOptions x.sched
  have hend (r : SyscallResult) (hr : r.Conventional) (r' : SyscallResult)
      (h : (Sum.inl r : SyscallResult ⊕ BitVec 32) = .inl r') : r'.Conventional :=
    Sum.inl.inj h ▸ hr
  by_cases hpos : (schedWaitpid pid schedOptions x.sched).1 > 0
  · have hret : SyscallResult.Conventional
        ⟨BitVec.ofInt 32 (schedWaitpid pid schedOptions x.sched).1, .ok⟩ :=
      conventional_ok (ofInt_ne (le_of_lt hpos) hlt)
    rw [if_pos hpos]
    split_ifs
    · split
      · exact ⟨hend _ (conventional_failure (by decide)), hflags⟩
      · exact ⟨hend _ hret, hflags⟩
    · exact ⟨hend _ hret, hflags⟩
  · rw [if_neg hpos]
    split_ifs
    · exact ⟨hend _ conventional_zero, hflags⟩
    · exact ⟨fun r h => (by cases h), hflags⟩
    · exact ⟨hend _ (conventional_failure (by decide)), hflags⟩

theorem roundOk_waitpidRound (h : TtyFlags d.tty) (regs : SyscallRegs) (status : BitVec 32) :
    RoundOk (waitpidRound regs status d) := by
  obtain ⟨hconv, hflags⟩ := waitpidRetry_ok (waitpidTarget regs.arg0) regs.arg1 regs.arg2 status
    (x := ⟨d.sched, d.memory⟩) h.fds
  unfold waitpidRound
  split
  · rename_i r x heq
    rw [heq] at hconv hflags
    exact roundOk_inl (hconv r rfl) ⟨h.lflag, hflags⟩
  · rename_i status' x heq
    rw [heq] at hflags
    exact roundOk_inr ⟨h.lflag, hflags⟩

end Rounds

/-! ## Runs -/

/-- What is known of a call that waits. -/
structure PendingCall.Ok (p : PendingCall) : Prop where
  waits : sysOfNr p.regs.nr ≠ some .getpid
  entries : ∀ startTick, p.place = .poll startTick → p.regs.arg1.toNat ≤ kernelMemSize.toNat

structure CallState.Ok (s : CallState) : Prop where
  flags : TtyFlags s.data.tty
  pending : ∀ p ∈ s.pending, p.Ok

/-- The convention as the caller sees it: what is returned, what is in the mailbox. -/
structure FollowsConvention (regs : SyscallRegs) (ret : BitVec 32) (memory : Bytes) : Prop where
  published : mailbox memory .ret = ret
  nr : mailbox memory .lastNr = regs.nr
  arg0 : mailbox memory .arg0 = regs.arg0
  arg1 : mailbox memory .arg1 = regs.arg1
  arg2 : mailbox memory .arg2 = regs.arg2
  arg3 : mailbox memory .arg3 = regs.arg3
  arg4 : mailbox memory .arg4 = regs.arg4
  arg5 : mailbox memory .arg5 = regs.arg5
  errno : ret = -1 ↔ mailbox memory .errno ≠ 0

section Mailbox

variable {memory : Bytes} {field field' : MailboxField}

/-- The fields lie one behind the other. -/
theorem MailboxField.off_eq (field : MailboxField) : field.off = 4 * field.ctorIdx := by
  cases field <;> rfl

theorem MailboxField.off_disjoint (h : field ≠ field') :
    field.off + 4 ≤ field'.off ∨ field'.off + 4 ≤ field.off := by
  have hne : field.ctorIdx ≠ field'.ctorIdx := by
    intro heq
    have hofNat := congrArg MailboxField.ofNat heq
    rw [MailboxField.ofNat_ctorIdx, MailboxField.ofNat_ctorIdx] at hofNat
    exact h hofNat
  rw [MailboxField.off_eq, MailboxField.off_eq]
  omega

@[simp] theorem mailbox_abiWrite32 (v : BitVec 32) :
    mailbox (abiWrite32 memory field v) field = v := by
  have hpow : 256 ^ 4 = 2 ^ 32 := by norm_num
  unfold mailbox abiWrite32
  rw [leNat_leStore, hpow, Nat.mod_eq_of_lt v.isLt, BitVec.ofNat_toNat, BitVec.setWidth_eq]

theorem mailbox_abiWrite32_of_ne (h : field ≠ field') (v : BitVec 32) :
    mailbox (abiWrite32 memory field' v) field = mailbox memory field := by
  have hoff := MailboxField.off_disjoint h
  unfold mailbox abiWrite32
  rw [leNat_leStore_of_disjoint (by omega)]

theorem mailbox_foldl_of_not_mem {ws : List (MailboxField × BitVec 32)}
    (h : field ∉ ws.map Prod.fst) :
    mailbox (ws.foldl (fun m w => abiWrite32 m w.1 w.2) memory) field = mailbox memory field := by
  induction ws generalizing memory with
  | nil => rfl
  | cons w ws ih =>
    rw [List.map_cons, List.mem_cons, not_or] at h
    rw [List.foldl_cons, ih h.2, mailbox_abiWrite32_of_ne h.1]

/-- Stores to different fields do not disturb each other. -/
theorem mailbox_foldl {ws : List (MailboxField × BitVec 32)} (hnodup : (ws.map Prod.fst).Nodup)
    {v : BitVec 32} (h : (field, v) ∈ ws) :
    mailbox (ws.foldl (fun m w => abiWrite32 m w.1 w.2) memory) field = v := by
  induction ws generalizing memory with
  | nil => cases h
  | cons w ws ih =>
    rw [List.map_cons, List.nodup_cons] at hnodup
    rw [List.foldl_cons]
    obtain rfl | hmem := List.mem_cons.mp h
    · rw [mailbox_foldl_of_not_mem hnodup.1, mailbox_abiWrite32]
    · exact ih hnodup.2 hmem

theorem Errno.code_eq_zero_iff (err : Errno) : err.code = 0 ↔ err = .ok := by
  cases err <;> decide

/-- A published result follows the convention when the result does. -/
theorem publish_followsConvention (regs : SyscallRegs) (r : SyscallResult) (d : KernelData) :
    FollowsConvention regs r.ret (syscallPublishResult regs r d).memory ↔ r.Conventional := by
  have hnodup : ((publishedWords regs r d.sched.ticks).map Prod.fst).Nodup := by
    simp [publishedWords]
  have hmail {field : MailboxField} {v : BitVec 32}
      (h : (field, v) ∈ publishedWords regs r d.sched.ticks) :
      mailbox (syscallPublishResult regs r d).memory field = v :=
    mailbox_foldl hnodup h
  have herrno : mailbox (syscallPublishResult regs r d).memory .errno = r.err.code :=
    hmail (by simp [publishedWords])
  have hne : mailbox (syscallPublishResult regs r d).memory .errno ≠ 0 ↔ r.err ≠ .ok := by
    rw [herrno]
    exact not_congr r.err.code_eq_zero_iff
  constructor
  · intro h
    exact h.errno.trans hne
  · intro h
    refine ⟨?_, ?_, ?_, ?_, ?_, ?_, ?_, ?_, h.trans hne.symm⟩ <;>
      exact hmail (by simp [publishedWords])

end Mailbox

section Steps

variable {raw : RawClocks} {regs : SyscallRegs} {d : KernelData} {s : CallState}

theorem roundOk_startCall (h : TtyFlags d.tty) (hnr : sysOfNr regs.nr ≠ some .getpid) :
    RoundOk (startCall raw regs d) := by
  unfold startCall
  split
  · exact roundOk_failure (by decide) h
  · exact absurd ‹_› hnr
  · exact roundOk_inl conventional_zero (h.setSched h.fds.yield)
  · exact roundOk_inl conventional_zero (h.setSched (h.fds.sleepTicks _))
  · exact roundOk_inl conventional_zero (h.setSched (h.fds.exitCode _))
  · unfold startWaitpid
    split_ifs
    · exact roundOk_failure (by decide) h
    · exact roundOk_failure (by decide) h
    · exact roundOk_inr h
  · exact roundOk_nanosleep h _ _
  · obtain ⟨hconv, hflags⟩ := sysRead_ok regs.arg0 regs.arg1 regs.arg2 regs.arg3
      (s := ⟨d.tty, d.memory⟩) h
    exact roundOk_inl hconv hflags
  · exact roundOk_write h _ _ _
  · unfold startPoll
    split_ifs
    · exact roundOk_inl conventional_zero h
    · exact roundOk_inr h
    · exact roundOk_failure (by decide) h
    · exact roundOk_failure (by decide) h
    · exact roundOk_inr h
  · unfold startSelect
    split_ifs
    · exact roundOk_failure (by decide) h
    · split
      · exact roundOk_inr h
      · exact roundOk_failure (by decide) h
  · exact roundOk_ttyGetmode h _
  · exact roundOk_ttySetmode h _ _
  · exact roundOk_inl (conventional_clockGettime _ _ _ _ _) h
  · exact roundOk_inl (conventional_gettimeofday _ _ _ _ _) h
  · exact roundOk_inl (conventional_clockGetres _ _ _) h
  · exact roundOk_inl (conventional_clockSettime _ _ _ _ _) h
  · exact roundOk_sysFd h (conventional_statusResult _) (fun _ => conventional_statusResult _)
      (fun _ ht => ht.close _)
  · exact roundOk_sysFd h (conventional_fdResult (by decide))
      (fun t => conventional_fdResult (dup_lt t _)) (fun _ ht => ht.dup _)
  · exact roundOk_sysFd h (conventional_fdResult (by decide))
      (fun t => conventional_fdResult (dup2_lt t _ _)) (fun _ ht => ht.dup2 _ _)
  · exact roundOk_fcntl h _ _ _
  · exact roundOk_open h _ _
  · exact roundOk_socket h _ _
  · exact roundOk_socketCall h _ (by decide)
  · exact roundOk_socketCall h _ (by decide)
  · exact roundOk_socketCall h _ (by decide)
  · exact roundOk_socketCall h _ (by decide)
  · exact roundOk_socketCall h _ (by decide)
  · exact roundOk_socketCall h _ (by decide)

theorem startCall_getpid (hnr : sysOfNr regs.nr = some .getpid) :
    startCall raw regs d = (.inl ⟨BitVec.ofInt 32 (schedCurrentTid d.sched), .ok⟩, d) := by
  rw [startCall, hnr]

theorem startPoll_entries {startTick : BitVec 32} {fdsAddr nfds timeoutMs : BitVec 32} {x : Sched}
    (h : startPoll fdsAddr nfds timeoutMs x = .inr (.poll startTick)) :
    nfds.toNat ≤ kernelMemSize.toNat := by
  unfold startPoll at h
  split_ifs at h with hzero htimeout hbig hrange
  · cases h
  · have hle : nfds.toNat ≤ (kernelMemSize / BitVec.ofNat 32 pollfdSize).toNat := not_lt.mp hbig
    exact hle.trans (by decide)

theorem startCall_pending {place : Waiting} (h : (startCall raw regs d).1 = .inr place) :
    PendingCall.Ok ⟨regs, place⟩ := by
  refine ⟨fun hnr => ?_, fun startTick hplace => ?_⟩
  · rw [startCall_getpid hnr] at h
    cases h
  · change place = .poll startTick at hplace
    subst hplace
    unfold startCall at h
    split at h
    case h_6 =>
      unfold startWaitpid at h
      split_ifs at h
      cases h
    case h_10 => exact startPoll_entries h
    case h_11 =>
      unfold startSelect at h
      split_ifs at h
      split at h <;> cases h
    all_goals cases h

theorem readyOrWait_next {ready timeoutMs startTick : BitVec 32} {waitReadStdin : Bool}
    {next place : Waiting}
    (h : (readyOrWait ready timeoutMs startTick waitReadStdin next d).1 = .inr place) :
    place = next := by
  simp only [readyOrWait, apply_ite Prod.fst] at h
  split_ifs at h <;> exact (Sum.inr.inj h).symm

theorem round_pending {p : PendingCall} (hp : p.Ok) {place : Waiting}
    (h : (p.place.round p.regs d).1 = .inr place) : PendingCall.Ok ⟨p.regs, place⟩ := by
  refine ⟨hp.waits, fun startTick hplace => ?_⟩
  change place = .poll startTick at hplace
  subst hplace
  obtain ⟨regs, current⟩ := p
  cases current with
  | waitpid status =>
    change (waitpidRound regs status d).1 = _ at h
    unfold waitpidRound at h
    split at h <;> cases h
  | sleep start =>
    change (sleepRound regs.arg2 start d).1 = _ at h
    unfold sleepRound at h
    dsimp only at h
    split_ifs at h <;> cases h
  | poll start => exact hp.entries start rfl
  | select start inRead inWrite inExcept =>
    change (selectRound regs start inRead inWrite inExcept d).1 = _ at h
    unfold selectRound at h
    split at h
    · cases h
    · split at h
      · cases h
      · cases readyOrWait_next h

theorem roundOk_pending {p : PendingCall} (hp : p.Ok) (h : TtyFlags d.tty) :
    RoundOk (p.place.round p.regs d) := by
  obtain ⟨regs, place⟩ := p
  cases place with
  | waitpid status => exact roundOk_waitpidRound h regs status
  | sleep start => exact roundOk_sleepRound h _ start
  | poll start => exact roundOk_pollRound h _ (hp.entries start rfl) _ start
  | select start inRead inWrite inExcept =>
    exact roundOk_selectRound h regs start inRead inWrite inExcept

/-- The part of a call that a label executes is good, or all of `SYS_GETPID`. -/
theorem round_ok {l : CallLabel} {p : Round × KernelData} {rest : List PendingCall} (h : s.Ok)
    (hround : s.round l = some (regs, p, rest)) :
    (∀ place, p.1 = .inr place → PendingCall.Ok ⟨regs, place⟩) ∧ (∀ q ∈ rest, q.Ok) ∧
      (sysOfNr regs.nr ≠ some .getpid ∧ RoundOk p ∨ sysOfNr regs.nr = some .getpid ∧
        p = (.inl ⟨BitVec.ofInt 32 (schedCurrentTid s.data.sched), .ok⟩, s.data)) := by
  cases l with
  | call raw regs' =>
    obtain ⟨rfl, rfl, rfl⟩ : regs' = regs ∧ startCall raw regs' s.data = p ∧ s.pending = rest := by
      simpa [CallState.round] using hround
    refine ⟨fun place hplace => startCall_pending hplace, h.pending, ?_⟩
    by_cases hnr : sysOfNr regs'.nr = some .getpid
    · exact .inr ⟨hnr, startCall_getpid hnr⟩
    · exact .inl ⟨hnr, roundOk_startCall h.flags hnr⟩
  | resume =>
    unfold CallState.round at hround
    cases hpending : s.pending with
    | nil =>
      rw [hpending] at hround
      cases hround
    | cons q qs =>
      rw [hpending] at hround
      obtain ⟨rfl, rfl, rfl⟩ : q.regs = regs ∧ q.place.round q.regs s.data = p ∧ qs = rest := by
        simpa using hround
      have hok := h.pending
      rw [hpending, List.forall_mem_cons] at hok
      exact ⟨fun place hplace => round_pending hok.1 hplace, hok.2,
        .inl ⟨hok.1.waits, roundOk_pending hok.1 h.flags⟩⟩
  | nullCall => cases hround
  | sched op => cases hround
  | feed ch => cases hround
  | store memory => cases hround

theorem round_flags {l : CallLabel} {p : Round × KernelData} {rest : List PendingCall} (h : s.Ok)
    (hround : s.round l = some (regs, p, rest)) : TtyFlags p.2.tty := by
  obtain ⟨-, -, ⟨-, hok⟩ | ⟨-, rfl⟩⟩ := round_ok h hround
  · exact hok.flags
  · exact h.flags

theorem next_ok {l : CallLabel} (h : s.Ok) (hl : l.allowed) : (s.next l).Ok := by
  unfold CallState.next
  split
  · rename_i regs r d rest hround
    obtain ⟨-, hrest, -⟩ := round_ok h hround
    exact ⟨round_flags h hround, hrest⟩
  · rename_i regs place d rest hround
    obtain ⟨hpending, hrest, -⟩ := round_ok h hround
    exact ⟨round_flags h hround, List.forall_mem_cons.mpr ⟨hpending place rfl, hrest⟩⟩
  · cases l with
    | call raw regs => exact h
    | nullCall => exact ⟨h.flags, h.pending⟩
    | resume => exact h
    | sched op => exact ⟨⟨h.flags.lflag, h.flags.fds.op hl⟩, h.pending⟩
    | feed ch => exact ⟨h.flags.feed ch, h.pending⟩
    | store memory => exact ⟨h.flags, h.pending⟩

theorem fdFlags_init : FdFlags schedInit := by
  intro i
  change (Function.update (fun _ => TaskSlot.zero) 0 _ i).fds.FlagsOk
  by_cases hi : i = 0
  · rw [hi, Function.update_self]
    exact flagsOk_initStdio
  · rw [Function.update_of_ne hi]
    exact flagsOk_zero

theorem reachable_ok (h : Reachable syscallRuns s) : s.Ok := by
  refine h.invariant (P := CallState.Ok) ?_ ?_
  · rintro s ⟨hpending, -, t, ht, htty⟩
    refine ⟨⟨?_, ?_⟩, ?_⟩
    · rw [htty]
      exact (by decide : SmallFlags (ttyLflagEcho ||| ttyLflagIcanon ||| ttyLflagIsig))
    · rw [htty]
      change FdFlags (schedWaitqInit .console t.sched)
      rw [ht]
      exact fdFlags_init
    · simp [hpending]
  · rintro s l t hs ⟨hl, rfl⟩
    exact next_ok hs hl

end Steps

/-! ## The convention -/

/-- The identifier of the current task is returned as it is, and `-1` when there is none. -/
theorem conventional_getpid_iff {s : Sched} (htids : ∀ i, (s.tasks i).tid.toNat < 2 ^ 31) :
    SyscallResult.Conventional ⟨BitVec.ofInt 32 (schedCurrentTid s), .ok⟩ ↔
      schedCurrentSlot s ≠ none := by
  unfold schedCurrentTid
  cases hslot : schedCurrentSlot s with
  | none => exact iff_of_false (fun h => h.mp rfl rfl) (not_not.mpr rfl)
  | some i =>
    refine iff_of_true (conventional_ok ?_) (by simp)
    have htid := htids i
    have htoInt : (s.tasks i).tid.toInt = (s.tasks i).tid.toNat :=
      BitVec.toInt_eq_toNat_of_lt (by omega)
    change BitVec.ofInt 32 (s.tasks i).tid.toInt ≠ -1
    rw [htoInt]
    exact ofInt_ne (Int.natCast_nonneg _) (by exact_mod_cast htid)

theorem returned_getpid {raw : RawClocks} {regs : SyscallRegs}
    (hnr : sysOfNr regs.nr = some .getpid) (s : CallState) :
    s.returned (.call raw regs) =
      some (regs, BitVec.ofInt 32 (schedCurrentTid s.data.sched)) := by
  simp only [CallState.returned, CallState.round, startCall_getpid hnr]

theorem next_getpid {raw : RawClocks} {regs : SyscallRegs} (hnr : sysOfNr regs.nr = some .getpid)
    (s : CallState) :
    (s.next (.call raw regs)).data = syscallPublishResult regs
      ⟨BitVec.ofInt 32 (schedCurrentTid s.data.sched), .ok⟩ s.data := by
  simp only [CallState.next, CallState.round, startCall_getpid hnr]

/-- Every return of `syscall_dispatch` follows the convention, except from `SYS_GETPID` when
the current slot is not in use. -/
theorem syscall_convention_iff {s : CallState} (h : Reachable syscallRuns s)
    (htids : ∀ i, (s.data.sched.tasks i).tid.toNat < 2 ^ 31) {l : CallLabel} {regs : SyscallRegs}
    {ret : BitVec 32} (hret : s.returned l = some (regs, ret)) :
    FollowsConvention regs ret (s.next l).data.memory ↔
      ¬ (sysOfNr regs.nr = some .getpid ∧ schedCurrentSlot s.data.sched = none) := by
  unfold CallState.returned at hret
  split at hret
  · rename_i regs' r d rest hround
    obtain ⟨rfl, rfl⟩ := Prod.mk.inj (Option.some.inj hret)
    have hnext : (s.next l).data = syscallPublishResult regs' r d := by
      unfold CallState.next
      rw [hround]
    rw [hnext, publish_followsConvention]
    obtain ⟨-, -, ⟨hnr, hok⟩ | ⟨hnr, hp⟩⟩ := round_ok (reachable_ok h) hround
    · exact iff_of_true (hok.conventional r rfl) fun hget => hnr hget.1
    · obtain rfl := Sum.inl.inj (Prod.mk.inj hp).1
      rw [conventional_getpid_iff htids]
      exact not_congr ⟨fun hnone => ⟨hnr, hnone⟩, fun hget => hget.2⟩
  · cases hret

/-- The kernel after its initialization. -/
def bootedKernel : CallState where
  data :=
    { tty := consoleInit ⟨⟨fun _ => 0, 0, 0, 0, 0, 0, 0⟩, schedInit, []⟩
      memory := fun _ => 0
      realtimeOffset := ⟨false, 0⟩ }
  pending := []

theorem bootedKernel_reachable : Reachable syscallRuns bootedKernel :=
  .of_init ⟨rfl, rfl, _, rfl, rfl⟩

theorem syscall_convention_unknown :
    FollowsConvention ⟨28, 0, 0, 0, 0, 0, 0⟩ (-1)
        (bootedKernel.next (.call ⟨0, 0, 0⟩ ⟨28, 0, 0, 0, 0, 0, 0⟩)).data.memory ↔
      ¬ (sysOfNr 28 = some .getpid ∧ schedCurrentSlot bootedKernel.data.sched = none) :=
  syscall_convention_iff bootedKernel_reachable (by decide) rfl

theorem reachable_ops {s : CallState} (h : Reachable syscallRuns s) {ops : List SchedOp}
    (hops : ∀ op ∈ ops, (CallLabel.sched op).allowed) :
    Reachable syscallRuns
      { s with data := s.data.setSched (ops.foldl (fun x op => op.run x) s.data.sched) } := by
  induction ops generalizing s with
  | nil => exact h
  | cons op ops ih =>
    rw [List.forall_mem_cons] at hops
    have hstep : Reachable syscallRuns (s.next (.sched op)) := h.step ⟨hops.1, rfl⟩
    exact ih hstep hops.2

/-- The second task sleeps, and invokes the first one, its parent, inside its wait. The
parent sleeps longer and invokes the second task again, which exits this time. When the
parent awakes, it waits for its child and returns into the wait of the slot that it has
just given up. -/
def orphanOps : List SchedOp :=
  [.call (.spawn (some 1)), .select, .call (.spawn (some 2)), .leave 1 none,
    .select, .call (.sleepTicks 1), .pump, .call (.sleepTicks 2), .tick,
    .pump, .call (.exitCode 0), .leave 2 (some 1), .tick,
    .call (.waitpid schedWaitpidAny schedWaitpidWnohang), .leave 1 (some 2)]

def orphaned : Sched := orphanOps.foldl (fun x op => op.run x) bootedKernel.data.sched

theorem orphaned_current : schedCurrentSlot orphaned = none := by decide +kernel

theorem orphaned_tids : ∀ i, (orphaned.tasks i).tid.toNat < 2 ^ 31 := by decide +kernel

/-- The task whose slot was given up asks for its identifier and gets `-1` without an
error. -/
theorem getpid_without_slot :
    ¬ ∀ s, Reachable syscallRuns s → (∀ i, (s.data.sched.tasks i).tid.toNat < 2 ^ 31) →
      ∀ l regs ret, s.returned l = some (regs, ret) →
        FollowsConvention regs ret (s.next l).data.memory := by
  intro h
  have hallowed : ∀ op ∈ orphanOps, (CallLabel.sched op).allowed := by
    simp [orphanOps, CallLabel.allowed]
  have hreach := reachable_ops bootedKernel_reachable hallowed
  have hnr : sysOfNr (⟨0, 0, 0, 0, 0, 0, 0⟩ : SyscallRegs).nr = some .getpid := rfl
  have hfollows := h _ hreach orphaned_tids (.call ⟨0, 0, 0⟩ _) _ _ (returned_getpid hnr _)
  rw [next_getpid hnr] at hfollows
  have hconv := (publish_followsConvention _ ⟨_, .ok⟩ _).mp hfollows
  exact (conventional_getpid_iff orphaned_tids).mp hconv orphaned_current

end LampVm
