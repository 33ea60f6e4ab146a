import LampVm.WaitQueue

/-!
# The end of a task

`sched_exit_code` returns to its caller, so a task that has exited goes on running until
its callback returns. Nothing stops it from going to sleep or from exiting again: the
first makes a dead task runnable, the second changes its exit code. Apart from these two
a dead task stays dead until it is reaped.
-/
namespace LampVm

open Transition

variable {op : SchedOp} {s₀ s t : Sched} {i : TaskIdx} {a b : TaskSlot}

/-! ## The slots of a table -/

/-- Identifiers are not zero, the idle task apart; slots out of use are cleared; a dead
task still has its slot. -/
structure TaskInv (s : Sched) : Prop where
  next : s.nextTid ≠ 0
  idle : ∀ i, (s.tasks i).isIdle = true ↔ i = 0
  tid : ∀ i, (s.tasks i).used = true → (s.tasks i).isIdle = false → (s.tasks i).tid ≠ 0
  zero : ∀ i, (s.tasks i).used = false ∨ (s.tasks i).isIdle = true → (s.tasks i).tid = 0
  unused : ∀ i, (s.tasks i).used = false → (s.tasks i).state = .unused
  dead : ∀ i, (s.tasks i).state = .zombie →
    (s.tasks i).used = true ∧ (s.tasks i).isIdle = false

theorem TaskInv.replace (h : TaskInv s) (htasks : t.tasks = Function.update s.tasks i b)
    (hnext : t.nextTid ≠ 0) (hidle : b.isIdle = (s.tasks i).isIdle)
    (htid : b.used = true → b.isIdle = false → b.tid ≠ 0)
    (hzero : b.used = false ∨ b.isIdle = true → b.tid = 0)
    (hunused : b.used = false → b.state = .unused)
    (hdead : b.state = .zombie → b.used = true ∧ b.isIdle = false) : TaskInv t := by
  have hslot : ∀ k, t.tasks k = if k = i then b else s.tasks k := fun k => by
    rw [htasks, Function.update_apply]
  constructor
  · exact hnext
  · intro k
    rw [hslot]
    split_ifs with hk
    · rw [hk, hidle, h.idle]
    · exact h.idle k
  · intro k
    rw [hslot]
    split_ifs
    · exact htid
    · exact h.tid k
  · intro k
    rw [hslot]
    split_ifs
    · exact hzero
    · exact h.zero k
  · intro k
    rw [hslot]
    split_ifs
    · exact hunused
    · exact h.unused k
  · intro k
    rw [hslot]
    split_ifs
    · exact hdead
    · exact h.dead k

/-- A change of one slot that keeps its task. -/
theorem TaskInv.same (h : TaskInv s) (htasks : t.tasks = Function.update s.tasks i b)
    (hnext : t.nextTid = s.nextTid) (hsame : SameTask (s.tasks i) b)
    (hunused : b.used = false → b.state = .unused)
    (hdead : b.state = .zombie → b.used = true ∧ b.isIdle = false) : TaskInv t := by
  refine h.replace htasks (by rw [hnext]; exact h.next) hsame.isIdle ?_ ?_ hunused hdead
  · rw [hsame.used, hsame.isIdle, hsame.tid]
    exact h.tid i
  · rw [hsame.used, hsame.isIdle, hsame.tid]
    exact h.zero i

theorem StateMove.unused {x : TaskState} (hmove : StateMove op s₀ s i x) (h : TaskInv s)
    (hused : (s.tasks i).used = false) : x = .unused := by
  have hstate := h.unused i hused
  cases hmove with
  | keep => exact hstate
  | wake hu =>
    rw [hused] at hu
    cases hu
  | enter hrunnable =>
    rw [hstate] at hrunnable
    cases hrunnable
  | pause hrunning =>
    rw [hstate] at hrunning
    cases hrunning
  | sleep _ _ hu =>
    rw [hused] at hu
    cases hu

/-- No change of state but an exit makes a task dead. -/
theorem StateMove.zombie {x : TaskState} (hmove : StateMove op s₀ s i x) (hx : x = .zombie) :
    (s.tasks i).state = .zombie := by
  cases hmove with
  | keep => exact hx
  | wake => cases hx
  | enter => cases hx
  | pause => cases hx
  | sleep => cases hx

theorem TaskInv.move {es : List SchedEvent} (h : TaskInv s) (hmove : SchedMove op s₀ s es t) :
    TaskInv t := by
  cases hmove with
  | state ht hsame hwaitq hcode hstate =>
    refine h.same ht.tasks ht.nextTid hsame ?_ ?_
    · intro hused
      exact hstate.unused h (hsame.used ▸ hused)
    · intro hdead
      rw [hsame.used, hsame.isIdle]
      exact h.dead _ (hstate.zombie hdead)
  | die ht hself hop hused hactive hfree hsame hwaitq hdead =>
    refine h.same ht.tasks ht.nextTid hsame ?_ ?_
    · intro hunused
      rw [hsame.used, hused] at hunused
      cases hunused
    · intro _
      exact ⟨hsame.used.trans hused, hsame.isIdle.trans hactive⟩
  | detach i =>
    refine h.same (detach_tasks i s) ?_ ⟨rfl, rfl, rfl, rfl, rfl⟩ (h.unused i) (h.dead i)
    unfold schedDetachWaitq
    split <;> rfl
  | attach ht hself hrests hused hactive hfree hown hsame hwaitq hcode hblocked =>
    refine h.same ht.tasks ht.nextTid hsame ?_ ?_
    · intro hunused
      rw [hsame.used, hused] at hunused
      cases hunused
    · intro hdead
      rw [hblocked] at hdead
      cases hdead
  | reap i hop hused hactive hdead hcaller hcallerActive hparent =>
    refine h.replace (i := i) rfl h.next hactive.symm ?_ (fun _ => rfl) (fun _ => rfl) ?_
    · intro hused
      cases hused
    · intro hdead
      cases hdead
  | spawn ht hop hslot hunused htid hused hactive hstate hwaitq hparent =>
    have hidle := (Bool.not_eq_true _).mp (mt (h.idle _).mp hslot)
    refine h.replace ht.tasks ?_ (hactive.trans hidle.symm) ?_ ?_ ?_ ?_
    · rw [ht.nextTid]
      unfold Sched.numbered
      dsimp only
      split_ifs with hwrap
      · decide
      · exact hwrap
    · intro _ _
      rw [htid]
      exact h.next
    · rw [hused, hactive]
      intro hcontra
      cases hcontra with
      | inl h => cases h
      | inr h => cases h
    · rw [hused]
      intro hcontra
      cases hcontra
    · rw [hstate]
      intro hcontra
      cases hcontra

theorem taskInv_init : TaskInv schedInit where
  next := by decide
  idle := by decide
  tid := by decide
  zero := by decide
  unused := by decide
  dead := by decide

theorem TaskInv.moves {es : List SchedEvent} (h : TaskInv s) (hmoves : Moves op s₀ s es t) :
    TaskInv t := by
  obtain ⟨ls, hrun, -⟩ := hmoves
  exact hrun.keeps (fun _ _ _ hinv hmove => hinv.move hmove) h

theorem reachable_taskInv (h : Reachable schedOps s) : TaskInv s :=
  reachable_of_moves taskInv_init (fun _ _ _ _ _ hinv hmove => hinv.move hmove) h

/-! ## Dead tasks -/

/-- The callback that an operation invokes. -/
def SchedOp.invokes (s : Sched) : SchedOp → Option TaskIdx
  | .select =>
    let s := runSelect s
    if invocable s s.currentIdx then some s.currentIdx else none
  | .pump => if invocable s (schedPickNextIdx s) then some (schedPickNextIdx s) else none
  | _ => none

/-- The operations with which a task takes back its own exit: it goes to sleep, or it
exits with another code. -/
def SchedOp.undoesExit (s : Sched) (op : SchedOp) : Prop :=
  (s.tasks s.currentIdx).state = .zombie ∧
    (op.rests s ∨ ∃ code, op = .call (.exitCode code) ∧ code ≠ (s.tasks s.currentIdx).exitCode)

/-- The dead task of slot `a` is still the one in slot `b`. -/
structure DeadAs (a b : TaskSlot) : Prop where
  state : b.state = .zombie
  used : b.used = true
  tid : b.tid = a.tid
  exitCode : b.exitCode = a.exitCode

/-- However a run goes on, the dead task of slot `i` is there with its exit code and is not
invoked, unless it has been reaped on the way. -/
def ExitFinal (M : System Sched SchedOp) (s : Sched) (i : TaskIdx) : Prop :=
  ∀ ops t, Run M s ops t →
    (DeadAs (s.tasks i) (t.tasks i) ∧ ∀ op : SchedOp, op.invokes t ≠ some i) ∨
    ∃ earlier later u, ops = earlier ++ later ∧ Run M s earlier u ∧ (u.tasks i).state = .unused

theorem DeadAs.same (h : DeadAs a b) {c : TaskSlot} (hsame : SameTask b c)
    (hstate : c.state = .zombie) (hcode : c.exitCode = a.exitCode) : DeadAs a c :=
  ⟨hstate, hsame.used.trans h.used, hsame.tid.trans h.tid, hcode⟩

theorem StateMove.of_zombie {x : TaskState} (hmove : StateMove op s₀ s i x)
    (hdead : (s.tasks i).state = .zombie) (hawake : i = s₀.currentIdx → ¬ op.rests s₀) :
    x = .zombie := by
  cases hmove with
  | keep => exact hdead
  | wake _ _ hwaits =>
    rw [hdead] at hwaits
    simp at hwaits
  | enter hrunnable =>
    rw [hdead] at hrunnable
    cases hrunnable
  | pause hrunning =>
    rw [hdead] at hrunning
    cases hrunning
  | sleep hself hrests => exact absurd hrests (hawake hself)

theorem DeadAs.move {es : List SchedEvent} (h : DeadAs a (s.tasks i))
    (hmove : SchedMove op s₀ s es t) (hawake : i = s₀.currentIdx → ¬ op.rests s₀)
    (hcode : ∀ code, op = .call (.exitCode code) → i = s₀.currentIdx → code = a.exitCode) :
    DeadAs a (t.tasks i) ∨
      (∃ pid options, op = .call (.waitpid pid options)) ∧ t.tasks i = .zero := by
  cases hmove with
  | @state k b t ht hsame hwaitq hkept hstate =>
    left
    rw [ht.tasks, Function.update_apply]
    split_ifs with hk
    · subst hk
      exact h.same hsame (hstate.of_zombie h.state hawake) (hkept.trans h.exitCode)
    · exact h
  | @die k b t ht hself hop hused hactive hfree hsame hwaitq hdead =>
    left
    rw [ht.tasks, Function.update_apply]
    split_ifs with hk
    · subst hk
      exact h.same hsame hdead (hcode _ hop hself)
    · exact h
  | detach k =>
    left
    rw [detach_tasks, Function.update_apply]
    split_ifs with hk
    · subst hk
      exact ⟨h.state, h.used, h.tid, h.exitCode⟩
    · exact h
  | @attach k q b t ht hself hrests hused hactive hfree hown hsame hwaitq hkept hblocked =>
    left
    rw [ht.tasks, Function.update_apply]
    split_ifs with hk
    · exact absurd hrests (hawake (hk.trans hself))
    · exact h
  | reap k hop hused hactive hdead hcaller hcallerActive hparent =>
    change DeadAs a (Function.update s.tasks k .zero i) ∨ _ ∧ Function.update s.tasks k .zero i = _
    rw [Function.update_apply]
    split_ifs with hk
    · exact .inr ⟨hop, rfl⟩
    · exact .inl h
  | @spawn k b t ht hop hslot hunused htid hused hactive hstate hwaitq hparent =>
    left
    rw [ht.tasks]
    change DeadAs a (Function.update s.tasks k b i)
    rw [Function.update_apply]
    split_ifs with hk
    · subst hk
      have hcontra := h.used
      rw [hunused] at hcontra
      cases hcontra
    · exact h

/-- Only a spawn takes a slot into use. -/
theorem SchedMove.unused {es : List SchedEvent} (hmove : SchedMove op s₀ s es t)
    (h : (s.tasks i).used = false) (hop : ∀ entry, op ≠ .call (.spawn entry)) :
    (t.tasks i).used = false := by
  have hkept : ∀ {k : TaskIdx} {b : TaskSlot}, SameTask (s.tasks k) b →
      (Function.update s.tasks k b i).used = false := by
    intro k b hsame
    rw [Function.update_apply]
    split_ifs with hk
    · subst hk
      exact hsame.used.trans h
    · exact h
  cases hmove with
  | state ht hsame =>
    rw [ht.tasks]
    exact hkept hsame
  | die ht _ _ _ _ _ hsame =>
    rw [ht.tasks]
    exact hkept hsame
  | detach k =>
    rw [detach_tasks]
    exact hkept ⟨rfl, rfl, rfl, rfl, rfl⟩
  | attach ht _ _ _ _ _ _ hsame =>
    rw [ht.tasks]
    exact hkept hsame
  | reap k =>
    change (Function.update s.tasks k .zero i).used = false
    rw [Function.update_apply]
    split_ifs with hk
    · rfl
    · exact h
  | spawn _ hspawn =>
    obtain ⟨entry, hentry⟩ := hspawn
    exact absurd hentry (hop entry)

/-- One operation that does not undo an exit leaves a dead task dead, or reaps it. -/
theorem DeadAs.run (h : DeadAs a (s.tasks i)) (hinv : TaskInv s) (hown : op.ownQueue s)
    (hkeeps : ¬ op.undoesExit s) :
    DeadAs a ((op.run s).tasks i) ∨ ((op.run s).tasks i).state = .unused := by
  have hawake : i = s.currentIdx → ¬ op.rests s := by
    rintro rfl hrests
    exact hkeeps ⟨h.state, .inl hrests⟩
  have hcode : ∀ code, op = .call (.exitCode code) → i = s.currentIdx → code = a.exitCode := by
    rintro code hop rfl
    by_contra hne
    exact hkeeps ⟨h.state, .inr ⟨code, hop, by rwa [h.exitCode]⟩⟩
  obtain ⟨ls, hrun, -⟩ := op.moves hown
  have hchain := hrun.keeps (P := fun u => TaskInv u ∧ (DeadAs a (u.tasks i) ∨
    (∃ pid options, op = .call (.waitpid pid options)) ∧ (u.tasks i).used = false)) ?_
    ⟨hinv, .inl h⟩
  · obtain ⟨hinv', hdead | ⟨-, hunused⟩⟩ := hchain
    · exact .inl hdead
    · exact .inr (hinv'.unused i hunused)
  · rintro u es v ⟨hinv', hdead | ⟨hop, hunused⟩⟩ hmove
    · refine ⟨hinv'.move hmove, ?_⟩
      obtain hsame | ⟨hop, hzero⟩ := hdead.move hmove hawake hcode
      · exact .inl hsame
      · exact .inr ⟨hop, by rw [hzero]; rfl⟩
    · refine ⟨hinv'.move hmove, .inr ⟨hop, SchedMove.unused hmove hunused ?_⟩⟩
      obtain ⟨pid, options, rfl⟩ := hop
      intro entry hentry
      cases hentry

theorem invokes_runnable (h : op.invokes s = some i) : (s.tasks i).state = .runnable := by
  have hselect : ∀ t : Sched, t.tasks = s.tasks →
      (if invocable t i then some i else none) = some i → (s.tasks i).state = .runnable := by
    intro t htasks hi
    split_ifs at hi with hinvocable
    simp only [invocable, Bool.and_eq_true, decide_eq_true_eq] at hinvocable
    rw [← htasks]
    exact hinvocable.2
  cases op with
  | select =>
    unfold SchedOp.invokes at h
    dsimp only at h
    split_ifs at h with hinvocable
    cases h
    refine hselect (runSelect s) ?_ (if_pos hinvocable)
    unfold runSelect
    split_ifs <;> rfl
  | pump =>
    unfold SchedOp.invokes at h
    split_ifs at h with hinvocable
    cases h
    exact hselect s rfl (if_pos hinvocable)
  | call | fds | tick | leave => cases h

/-- The operations under which exits are final. -/
def finalOps : System Sched SchedOp := schedOps.restrict fun s op => ¬ op.undoesExit s

theorem exitFinal (h : Reachable finalOps s) (hdead : (s.tasks i).state = .zombie) :
    ExitFinal finalOps s i := by
  intro ops t hrun
  have hstart : DeadAs (s.tasks i) (s.tasks i) :=
    ⟨hdead, ((reachable_taskInv h.of_restrict).dead i hdead).1, rfl, rfl⟩
  have hidle : ∀ {u : Sched}, DeadAs (s.tasks i) (u.tasks i) →
      ∀ op : SchedOp, op.invokes u ≠ some i := by
    intro u hu op hop
    have hrunnable := invokes_runnable hop
    rw [hu.state] at hrunnable
    cases hrunnable
  induction hrun with
  | nil => exact .inl ⟨hstart, hidle hstart⟩
  | @snoc ops op u v hrun hstep ih =>
    obtain ⟨hdead, -⟩ | ⟨earlier, later, w, rfl, hearlier, hunused⟩ := ih
    · have hinv := reachable_taskInv (h.run hrun).of_restrict
      obtain ⟨hkeeps, hown, rfl⟩ := hstep
      obtain hdead' | hunused := hdead.run hinv hown hkeeps
      · exact .inl ⟨hdead', hidle hdead'⟩
      · exact .inr ⟨ops ++ [op], [], _, (List.append_nil _).symm,
          hrun.snoc ⟨hkeeps, hown, rfl⟩, hunused⟩
    · exact .inr ⟨earlier, later ++ [op], w, List.append_assoc .., hearlier, hunused⟩

/-! ## What an operation that undoes an exit does -/

/-- Waking tasks does nothing to a dead one. -/
theorem DeadAs.wakes (h : DeadAs a (s.tasks i)) (hwakes : Moves .tick s s [] t) :
    DeadAs a (t.tasks i) := by
  obtain ⟨ls, hrun, -⟩ := hwakes
  refine hrun.keeps (P := fun u => DeadAs a (u.tasks i)) ?_ h
  intro u es v hdead hmove
  obtain hsame | ⟨⟨pid, options, hop⟩, -⟩ := hdead.move hmove (fun _ hrests => hrests)
    (fun code hop => by cases hop)
  · exact hsame
  · cases hop

/-- An exit makes the current task dead, with the code it was given. -/
theorem schedExitCode_dead (code : BitVec 32) (hused : (s.tasks s.currentIdx).used = true)
    (hactive : (s.tasks s.currentIdx).isIdle = false) :
    DeadAs { s.tasks s.currentIdx with exitCode := code }
      ((schedExitCode code s).tasks s.currentIdx) := by
  obtain ⟨hunused, -⟩ | ⟨-, hcurrent⟩ := schedCurrentSlot_cases s
  · rw [hused] at hunused
    cases hunused
  rw [schedExitCode_eq code hcurrent hactive]
  have hdead : DeadAs { s.tasks s.currentIdx with exitCode := code }
      ((exitTable code s.currentIdx s).tasks s.currentIdx) := by
    rw [exitTable_tasks, Function.update_self]
    exact ⟨rfl, hused, rfl, rfl⟩
  exact hdead.wakes ((moves_wakeParent .tick _ _ _).trans (.scalars rfl rfl rfl))

/-- Going to sleep on a queue changes the current slot. -/
theorem schedWaitqSleep_tasks (q : WaitqRef) (timeout : BitVec 32)
    (hused : (s.tasks s.currentIdx).used = true)
    (hactive : (s.tasks s.currentIdx).isIdle = false) :
    (schedWaitqSleep q timeout s).tasks = Function.update s.tasks s.currentIdx
      { s.tasks s.currentIdx with
        waitq := some q, state := .blocked,
        wakeTick := if timeout ≠ 0 then (schedDetachWaitq s.currentIdx s).ticks + timeout else 0,
        quantumUsed := 0 } := by
  unfold schedWaitqSleep
  obtain ⟨hunused, -⟩ | ⟨-, hcurrent⟩ := schedCurrentSlot_cases s
  · rw [hused] at hunused
    cases hunused
  rw [hcurrent]
  dsimp only
  rw [if_neg (by simp [hactive])]
  unfold Sched.setTask Sched.resched
  dsimp only
  rw [detach_waitq, detach_tasks, Function.update_idem]

theorem schedWaitqSleep_state (q : WaitqRef) (timeout : BitVec 32)
    (hused : (s.tasks s.currentIdx).used = true)
    (hactive : (s.tasks s.currentIdx).isIdle = false) :
    ((schedWaitqSleep q timeout s).tasks s.currentIdx).state = .blocked := by
  rw [schedWaitqSleep_tasks q timeout hused hactive, Function.update_self]

theorem schedSleepTicks_state (ticks : BitVec 32) (hused : (s.tasks s.currentIdx).used = true)
    (hactive : (s.tasks s.currentIdx).isIdle = false) :
    ((schedSleepTicks ticks s).tasks s.currentIdx).state = .sleeping := by
  unfold schedSleepTicks
  obtain ⟨hunused, -⟩ | ⟨-, hcurrent⟩ := schedCurrentSlot_cases s
  · rw [hused] at hunused
    cases hunused
  rw [hcurrent]
  dsimp only
  rw [if_neg (by simp [hactive])]
  simp [Sched.setTask, Sched.resched]

/-- Without a dead child whose identifier is zero, a result of zero leaves the table. -/
theorem TaskInv.tryReap_zero (h : TaskInv s) {parentTid pid : BitVec 32}
    (hrc : (schedTryReapChild parentTid pid s).1 = 0) :
    schedTryReapChild parentTid pid s = (0, none, s) := by
  obtain ⟨j, status, hdead, hreap⟩ | ⟨rc, -, hreap⟩ := schedTryReapChild_cases parentTid pid s
  · rw [hreap] at hrc
    have htid := h.tid j (used_of_isChildOf hdead.1) (active_of_isChildOf hdead.1)
    have hzero : (s.tasks j).tid = 0 := by
      rw [← BitVec.toInt_inj]
      exact hrc
    exact absurd hzero htid
  · rw [hreap] at hrc ⊢
    rw [show rc = 0 from hrc]

/-- `sched_waitpid` after its search for a child to reap. -/
theorem schedWaitpid_eq {pid : BitVec 32} (options : BitVec 32) {rc : ℤ}
    {status : Option (BitVec 32)} (hp : schedCurrentSlot s = some i)
    (hactive : (s.tasks i).isIdle = false)
    (hreap : schedTryReapChild (s.tasks i).tid pid s = (rc, status, t)) :
    schedWaitpid pid options s =
      if rc ≠ 0 then (rc, status, t)
      else if options &&& schedWaitpidWnohang ≠ 0 then (0, status, t)
      else (schedWaitpidBlocked, status, schedWaitqSleep (.child i) 0 t) := by
  unfold schedWaitpid
  rw [hp]
  dsimp only
  rw [if_neg (by simp [hactive]), hreap]

/-- `sched_waitpid` where it blocks. -/
theorem TaskInv.waitpid_blocks (h : TaskInv s) {pid options : BitVec 32}
    (hused : (s.tasks s.currentIdx).used = true) (hactive : (s.tasks s.currentIdx).isIdle = false)
    (hrests : (SchedOp.call (.waitpid pid options)).rests s) :
    schedWaitpid pid options s =
      (schedWaitpidBlocked, none, schedWaitqSleep (.child s.currentIdx) 0 s) := by
  obtain ⟨hunused, -⟩ | ⟨-, hcurrent⟩ := schedCurrentSlot_cases s
  · rw [hused] at hunused
    cases hunused
  rw [schedWaitpid_eq options hcurrent hactive (h.tryReap_zero hrests.2), if_neg (by simp),
    if_neg (not_not.mpr hrests.1)]

theorem undoesExit_breaks (h : TaskInv s) (hundo : op.undoesExit s) :
    ¬ DeadAs (s.tasks s.currentIdx) ((op.run s).tasks s.currentIdx) ∧
      ((op.run s).tasks s.currentIdx).state ≠ .unused := by
  obtain ⟨hdead, hundo⟩ := hundo
  obtain ⟨hused, hactive⟩ := h.dead _ hdead
  have hrevived : ∀ {x : TaskState}, x = .blocked ∨ x = .sleeping →
      ((op.run s).tasks s.currentIdx).state = x →
      ¬ DeadAs (s.tasks s.currentIdx) ((op.run s).tasks s.currentIdx) ∧
        ((op.run s).tasks s.currentIdx).state ≠ .unused := by
    rintro x hx hstate
    refine ⟨fun hsame => ?_, ?_⟩
    · have hzombie := hstate.symm.trans hsame.state
      obtain rfl | rfl := hx <;> cases hzombie
    · rw [hstate]
      obtain rfl | rfl := hx <;> decide
  obtain hrests | ⟨code, rfl, hcode⟩ := hundo
  · cases op with
    | call c =>
      cases c with
      | sleepTicks ticks => exact hrevived (.inr rfl) (schedSleepTicks_state ticks hused hactive)
      | waitqSleep q timeout =>
        exact hrevived (.inl rfl) (schedWaitqSleep_state q timeout hused hactive)
      | waitpid pid options =>
        refine hrevived (.inl rfl) ?_
        have hblocks := h.waitpid_blocks hused hactive hrests
        change (((schedWaitpid pid options s).2.2).tasks s.currentIdx).state = .blocked
        rw [hblocks]
        exact schedWaitqSleep_state _ 0 hused hactive
      | yield | wakeOne | wakeAll | spawn | exitCode => exact hrests.elim
    | fds | tick | select | pump | leave => exact hrests.elim
  · have hnew := schedExitCode_dead code hused hactive
    refine ⟨fun hsame => hcode ?_, ?_⟩
    · exact hnew.exitCode.symm.trans hsame.exitCode
    · intro hunused
      have hzombie := hnew.state.symm.trans hunused
      cases hzombie

/-- As long as no dead task goes to sleep or exits with another code, exits are final; an
operation with which one does takes its exit back at once. -/
theorem exits_final_without_undoing (s : Sched) :
    (∀ i, Reachable finalOps s → (s.tasks i).state = .zombie → ExitFinal finalOps s i) ∧
    ∀ op : SchedOp, Reachable schedOps s → op.undoesExit s →
      ¬ DeadAs (s.tasks s.currentIdx) ((op.run s).tasks s.currentIdx) ∧
        ((op.run s).tasks s.currentIdx).state ≠ .unused :=
  ⟨fun _ h hdead => exitFinal h hdead,
    fun _ h hundo => undoesExit_breaks (reachable_taskInv h) hundo⟩

/-- The first task, started and exited with code 7. -/
def exitedTask : Sched :=
  schedExitCode 7 (schedRunEnter (schedSpawn (some 1) schedInit).2)

theorem exitedTask_reachable : Reachable finalOps exitedTask := by
  have hop : ∀ (s : Sched) (op : SchedOp), Reachable finalOps s → op.ownQueue s →
      (s.tasks s.currentIdx).state ≠ .zombie → Reachable finalOps (op.run s) :=
    fun s op h hown halive => h.step ⟨fun hundo => halive hundo.1, hown, rfl⟩
  have hspawn := hop schedInit (.call (.spawn (some 1))) (.of_init rfl) trivial (by decide)
  have hselect := hop _ .select hspawn trivial (by decide)
  exact hop _ (.call (.exitCode 7)) hselect trivial (by decide)

theorem exits_final_first_task :
    (exitedTask.tasks 1).state = .zombie ∧ ExitFinal finalOps exitedTask 1 :=
  ⟨by decide, (exits_final_without_undoing _).1 _ exitedTask_reachable (by decide)⟩

/-- A task that sleeps after its exit is runnable again at the next tick. -/
theorem sleep_revives_exited_task :
    ¬ ∀ s i, Reachable schedOps s → (s.tasks i).state = .zombie → ExitFinal schedOps s i := by
  intro hall
  have hrun : Run schedOps exitedTask [.call (.sleepTicks 1)] (schedSleepTicks 1 exitedTask) :=
    Run.snoc .nil ⟨trivial, rfl⟩
  obtain ⟨hdead, -⟩ | ⟨earlier, later, u, hops, hearlier, hunused⟩ :=
    hall exitedTask 1 exitedTask_reachable.of_restrict (by decide) _ _ hrun
  · have hstate := hdead.state
    revert hstate
    decide
  · have hu := run_eq_foldl hearlier
    cases earlier with
    | nil =>
      rw [hu] at hunused
      revert hunused
      decide
    | cons op earlier =>
      obtain ⟨rfl, hrest⟩ := List.cons.inj hops
      obtain ⟨rfl, -⟩ := List.append_eq_nil_iff.mp hrest.symm
      rw [hu] at hunused
      revert hunused
      decide

end LampVm