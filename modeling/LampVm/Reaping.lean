import LampVm.TaskExit

/-!
# Parents and children

A task knows its parent by its identifier. As long as identifiers have not wrapped
around they are unique over a whole run, so what `sched_waitpid` returns is one child
that has exited, every exited task is returned at most once, and a parent that blocks is
woken by every exit of a child.
-/
namespace LampVm

open Transition

/-- The history of a run. -/
abbrev SchedLog := List SchedEvent

def SchedEvent.spawnedTid : SchedEvent → Option (BitVec 32)
  | .spawned tid => some tid
  | _ => none

def SchedEvent.exitedTid : SchedEvent → Option (BitVec 32)
  | .exited tid => some tid
  | _ => none

def SchedEvent.reapedTid : SchedEvent → Option (BitVec 32)
  | .reaped tid => some tid
  | _ => none

def spawnedTids (log : SchedLog) : List (BitVec 32) := log.filterMap SchedEvent.spawnedTid

def exitedTids (log : SchedLog) : List (BitVec 32) := log.filterMap SchedEvent.exitedTid

def reapedTids (log : SchedLog) : List (BitVec 32) := log.filterMap SchedEvent.reapedTid

@[simp] theorem spawnedTids_append (log log' : SchedLog) :
    spawnedTids (log ++ log') = spawnedTids log ++ spawnedTids log' := List.filterMap_append

@[simp] theorem exitedTids_append (log log' : SchedLog) :
    exitedTids (log ++ log') = exitedTids log ++ exitedTids log' := List.filterMap_append

@[simp] theorem reapedTids_append (log log' : SchedLog) :
    reapedTids (log ++ log') = reapedTids log ++ reapedTids log' := List.filterMap_append

/-- The runs of the scheduler with their histories. -/
def schedRuns : System (Sched × SchedLog) SchedOp := schedOps.logged fun s op => op.events s

variable {op : SchedOp} {s₀ s t : Sched} {i j p : TaskIdx} {b : TaskSlot} {log : SchedLog}

theorem reachable_schedOps {r : Sched × SchedLog} (h : Reachable schedRuns r) :
    Reachable schedOps r.1 := by
  refine h.invariant (P := fun r => Reachable schedOps r.1) ?_ ?_
  · intro r hr
    exact .of_init hr.1
  · intro r op r' hr hstep
    exact hr.step hstep.1

theorem reachable_log {P : Sched → SchedLog → Prop} (hinit : P schedInit [])
    (hmove : ∀ op s₀ s log es t, TaskInv s → P s log → SchedMove op s₀ s es t → P t (log ++ es))
    {r : Sched × SchedLog} (h : Reachable schedRuns r) : P r.1 r.2 := by
  have hboth : TaskInv r.1 ∧ P r.1 r.2 := by
    refine h.invariant (P := fun r => TaskInv r.1 ∧ P r.1 r.2) ?_ ?_
    · rintro ⟨s, log⟩ ⟨rfl, rfl⟩
      exact ⟨taskInv_init, hinit⟩
    · rintro ⟨s, log⟩ op ⟨t, log'⟩ hP ⟨⟨hown, rfl⟩, rfl⟩
      refine SchedOp.keeps (P := fun s log => TaskInv s ∧ P s log) ?_ log hP hown
      rintro op s₀ s log es t ⟨hinv, hP⟩ hstep
      exact ⟨hinv.move hstep, hmove op s₀ s log es t hinv hP hstep⟩
  exact hboth.2

/-! ## Identifiers -/

/-- A slot in use by a task other than the idle one. -/
def Sched.live (s : Sched) (i : TaskIdx) : Prop :=
  (s.tasks i).used = true ∧ (s.tasks i).isIdle = false

/-- Identifiers are given out in order, and no two tasks of a run share one. -/
structure TidInv (s : Sched) (log : SchedLog) : Prop where
  next : s.nextTid.toNat = (spawnedTids log).length + 1
  below : ∀ tid ∈ spawnedTids log, 0 < tid.toNat ∧ tid.toNat < s.nextTid.toNat
  spawned : (spawnedTids log).Nodup
  reaped : (reapedTids log).Nodup
  reapedSpawned : ∀ tid ∈ reapedTids log, tid ∈ spawnedTids log
  live : ∀ i, s.live i → (s.tasks i).tid ∈ spawnedTids log ∧ (s.tasks i).tid ∉ reapedTids log
  unique : ∀ i j, s.live i → s.live j → (s.tasks i).tid = (s.tasks j).tid → i = j
  parent : ∀ i, s.live i → (s.tasks i).parentTid.toNat < (s.tasks i).tid.toNat

theorem tidInv_init : TidInv schedInit [] := by
  have hnone : ∀ i, ¬ schedInit.live i := by
    unfold Sched.live
    decide
  constructor
  · rfl
  · intro tid htid
    cases htid
  · exact List.nodup_nil
  · exact List.nodup_nil
  · intro tid htid
    cases htid
  · intro i hi
    exact absurd hi (hnone i)
  · intro i j hi
    exact absurd hi (hnone i)
  · intro i hi
    exact absurd hi (hnone i)

/-- What the invariant reads of a table. -/
structure SameTids (s t : Sched) : Prop where
  next : t.nextTid = s.nextTid
  slot : ∀ k, SameTask (s.tasks k) (t.tasks k)

theorem SameTids.of_update (hnext : t.nextTid = s.nextTid)
    (htasks : t.tasks = Function.update s.tasks i b) (hsame : SameTask (s.tasks i) b) :
    SameTids s t := by
  refine ⟨hnext, fun k => ?_⟩
  rw [htasks, Function.update_apply]
  split_ifs with hk
  · rw [hk]
    exact hsame
  · exact .refl _

theorem SameTids.live_iff (h : SameTids s t) (k : TaskIdx) : t.live k ↔ s.live k := by
  unfold Sched.live
  rw [(h.slot k).used, (h.slot k).isIdle]

theorem TidInv.same (h : TidInv s log) (hsame : SameTids s t) {es : List SchedEvent}
    (hspawned : spawnedTids es = []) (hreaped : reapedTids es = []) : TidInv t (log ++ es) := by
  have hs : spawnedTids (log ++ es) = spawnedTids log := by
    rw [spawnedTids_append, hspawned, List.append_nil]
  have hr : reapedTids (log ++ es) = reapedTids log := by
    rw [reapedTids_append, hreaped, List.append_nil]
  constructor
  · rw [hsame.next, hs]
    exact h.next
  · rw [hsame.next, hs]
    exact h.below
  · rw [hs]
    exact h.spawned
  · rw [hr]
    exact h.reaped
  · rw [hs, hr]
    exact h.reapedSpawned
  · intro k hk
    rw [(hsame.slot k).tid, hs, hr]
    exact h.live k ((hsame.live_iff k).mp hk)
  · intro k l hk hl heq
    rw [(hsame.slot k).tid, (hsame.slot l).tid] at heq
    exact h.unique k l ((hsame.live_iff k).mp hk) ((hsame.live_iff l).mp hl) heq
  · intro k hk
    rw [(hsame.slot k).tid, (hsame.slot k).parentTid]
    exact h.parent k ((hsame.live_iff k).mp hk)

/-- While identifiers have not wrapped around, a live task's is positive as an `int`. -/
theorem TidInv.toInt (h : TidInv s log) (hbound : (spawnedTids log).length < 2 ^ 31)
    (hi : s.live i) : (s.tasks i).tid.toInt = (s.tasks i).tid.toNat ∧ 0 < (s.tasks i).tid.toNat := by
  obtain ⟨hpos, hlt⟩ := h.below _ (h.live i hi).1
  have hnext := h.next
  refine ⟨?_, hpos⟩
  rw [BitVec.toInt_eq_toNat_of_lt]
  omega

theorem TidInv.reapEvents (h : TidInv s log) (hbound : (spawnedTids log).length < 2 ^ 31)
    (hi : s.live i) : reapEvents (s.tasks i).tid.toInt = [.reaped (s.tasks i).tid] := by
  obtain ⟨hint, hpos⟩ := h.toInt hbound hi
  unfold LampVm.reapEvents
  rw [if_pos (by omega), BitVec.ofInt_toInt]

theorem live_clear (k : TaskIdx) : (schedClearTask i s).live k ↔ k ≠ i ∧ s.live k := by
  unfold Sched.live
  change (Function.update s.tasks i .zero k).used = true ∧
    (Function.update s.tasks i .zero k).isIdle = false ↔ _
  rw [Function.update_apply]
  split_ifs with hk
  · simp [hk, TaskSlot.zero]
  · simp [hk]

theorem clear_tasks (hk : j ≠ i) : (schedClearTask i s).tasks j = s.tasks j := by
  change Function.update s.tasks i .zero j = _
  rw [Function.update_of_ne hk]

theorem TidInv.reap (h : TidInv s log) (hi : s.live i) :
    TidInv (schedClearTask i s) (log ++ [.reaped (s.tasks i).tid]) := by
  have hs : spawnedTids (log ++ [.reaped (s.tasks i).tid]) = spawnedTids log := by
    rw [spawnedTids_append]
    exact List.append_nil _
  have hr : reapedTids (log ++ [.reaped (s.tasks i).tid]) =
      reapedTids log ++ [(s.tasks i).tid] := by
    rw [reapedTids_append]
    rfl
  constructor
  · rw [hs]
    exact h.next
  · rw [hs]
    exact h.below
  · rw [hs]
    exact h.spawned
  · rw [hr]
    refine List.Nodup.append h.reaped (List.nodup_singleton _) ?_
    rw [List.disjoint_singleton]
    exact (h.live i hi).2
  · rw [hs, hr]
    intro tid htid
    rw [List.mem_append, List.mem_singleton] at htid
    obtain htid | rfl := htid
    · exact h.reapedSpawned tid htid
    · exact (h.live i hi).1
  · intro k hk
    obtain ⟨hne, hk⟩ := (live_clear k).mp hk
    rw [clear_tasks hne, hs, hr, List.mem_append, List.mem_singleton, not_or]
    refine ⟨(h.live k hk).1, (h.live k hk).2, fun heq => hne ?_⟩
    exact h.unique k i hk hi heq
  · intro k l hk hl heq
    obtain ⟨hne, hk⟩ := (live_clear k).mp hk
    obtain ⟨hne', hl⟩ := (live_clear l).mp hl
    rw [clear_tasks hne, clear_tasks hne'] at heq
    exact h.unique k l hk hl heq
  · intro k hk
    obtain ⟨hne, hk⟩ := (live_clear k).mp hk
    rw [clear_tasks hne]
    exact h.parent k hk

/-- The identifier recorded as the parent's is zero or that of a live task. -/
theorem TaskInv.tid_cases (h : TaskInv s) (k : TaskIdx) : (s.tasks k).tid = 0 ∨ s.live k := by
  by_cases hused : (s.tasks k).used = true
  · by_cases hidle : (s.tasks k).isIdle = true
    · exact .inl (h.zero k (.inr hidle))
    · exact .inr ⟨hused, by simpa using hidle⟩
  · exact .inl (h.zero k (.inl (by simpa using hused)))

/-- The parent of a new task is a live task, if it has a parent. -/
theorem TaskInv.parent_cases (h : TaskInv s) {tid : BitVec 32}
    (hparent : tid = 0 ∨ tid = (s.tasks s.currentIdx).tid) :
    tid = 0 ∨ s.live s.currentIdx ∧ tid = (s.tasks s.currentIdx).tid := by
  obtain hzero | heq := hparent
  · exact .inl hzero
  · obtain hzero | hlive := h.tid_cases s.currentIdx
    · exact .inl (heq.trans hzero)
    · exact .inr ⟨hlive, heq⟩

/-- Before the counter wraps around, a spawn takes it one further. -/
theorem numbered_nextTid (h : s.nextTid.toNat + 1 < 2 ^ 32) :
    (s.numbered i).nextTid.toNat = s.nextTid.toNat + 1 := by
  have hadd : (s.nextTid + 1).toNat = s.nextTid.toNat + 1 := by
    rw [BitVec.toNat_add]
    have hone : (1 : BitVec 32).toNat = 1 := rfl
    omega
  have hne : s.nextTid + 1 ≠ 0 := by
    refine BitVec.toNat_ne_iff_ne.mp ?_
    rw [hadd]
    exact Nat.succ_ne_zero _
  unfold Sched.numbered
  dsimp only
  rw [if_neg hne, hadd]

theorem TidInv.spawn (h : TidInv s log) (hinv : TaskInv s) (ht : OneSlot (s.numbered i) i b t)
    (hbound : (spawnedTids log).length + 1 < 2 ^ 31) (htid : b.tid = s.nextTid)
    (hparent : b.parentTid = 0 ∨ b.parentTid = (s.tasks s.currentIdx).tid) :
    TidInv t (log ++ [.spawned s.nextTid]) := by
  have hs : spawnedTids (log ++ [.spawned s.nextTid]) = spawnedTids log ++ [s.nextTid] := by
    rw [spawnedTids_append]
    rfl
  have hr : reapedTids (log ++ [.spawned s.nextTid]) = reapedTids log := by
    rw [reapedTids_append]
    exact List.append_nil _
  have hnext := h.next
  have hfresh : s.nextTid ∉ spawnedTids log := fun hmem => by
    have := (h.below _ hmem).2
    omega
  have htasks : ∀ k, t.tasks k = if k = i then b else s.tasks k := fun k => by
    rw [ht.tasks, Function.update_apply]
    rfl
  have hlive : ∀ k, k ≠ i → t.live k → s.live k := fun k hk hlive => by
    unfold Sched.live at hlive
    rwa [htasks, if_neg hk] at hlive
  have hplus : t.nextTid.toNat = s.nextTid.toNat + 1 := by
    rw [ht.nextTid]
    exact numbered_nextTid (by omega)
  constructor
  · rw [hs, hplus, hnext, List.length_append]
    rfl
  · rw [hs, hplus]
    intro tid hmem
    rw [List.mem_append, List.mem_singleton] at hmem
    obtain hmem | rfl := hmem
    · have := h.below tid hmem
      omega
    · omega
  · rw [hs]
    refine List.Nodup.append h.spawned (List.nodup_singleton _) ?_
    rw [List.disjoint_singleton]
    exact hfresh
  · rw [hr]
    exact h.reaped
  · rw [hs, hr]
    intro tid hmem
    exact List.mem_append_left _ (h.reapedSpawned tid hmem)
  · intro k hk
    rw [hs, hr, htasks]
    split_ifs with hki
    · rw [htid]
      exact ⟨List.mem_append_right _ (List.mem_singleton_self _),
        fun hmem => hfresh (h.reapedSpawned _ hmem)⟩
    · have hold := h.live k (hlive k hki hk)
      exact ⟨List.mem_append_left _ hold.1, hold.2⟩
  · intro k l hk hl heq
    rw [htasks, htasks] at heq
    split_ifs at heq with hki hli hli
    · rw [hki, hli]
    · rw [htid] at heq
      exact absurd (heq ▸ (h.live l (hlive l hli hl)).1) hfresh
    · rw [htid] at heq
      exact absurd (heq ▸ (h.live k (hlive k hki hk)).1) hfresh
    · exact h.unique k l (hlive k hki hk) (hlive l hli hl) heq
  · intro k hk
    rw [htasks]
    split_ifs with hki
    · rw [htid]
      obtain hzero | ⟨hcur, heq⟩ := hinv.parent_cases hparent
      · rw [hzero]
        have hz : (0 : BitVec 32).toNat = 0 := rfl
        omega
      · rw [heq]
        exact (h.below _ (h.live _ hcur).1).2
    · exact h.parent k (hlive k hki hk)

theorem tidInv_move {es : List SchedEvent} (hinv : TaskInv s)
    (h : (spawnedTids log).length < 2 ^ 31 → TidInv s log) (hmove : SchedMove op s₀ s es t)
    (hbound : (spawnedTids (log ++ es)).length < 2 ^ 31) : TidInv t (log ++ es) := by
  rw [spawnedTids_append, List.length_append] at hbound
  have hbefore : (spawnedTids log).length < 2 ^ 31 := by omega
  have hs := h hbefore
  cases hmove with
  | state ht hsame => exact hs.same (.of_update ht.nextTid ht.tasks hsame) rfl rfl
  | die ht _ _ _ _ _ hsame => exact hs.same (.of_update ht.nextTid ht.tasks hsame) rfl rfl
  | detach k =>
    refine hs.same (.of_update ?_ (detach_tasks k s) ⟨rfl, rfl, rfl, rfl, rfl⟩) rfl rfl
    unfold schedDetachWaitq
    split <;> rfl
  | attach ht _ _ _ _ _ _ hsame =>
    exact hs.same (.of_update ht.nextTid ht.tasks hsame) rfl rfl
  | reap k hop hused hactive =>
    rw [hs.reapEvents hbefore ⟨hused, hactive⟩]
    exact hs.reap ⟨hused, hactive⟩
  | spawn ht hop hslot hunused htid hused hactive hstate hwaitq hparent =>
    exact hs.spawn hinv ht hbound htid hparent

theorem reachable_tidInv {r : Sched × SchedLog} (h : Reachable schedRuns r)
    (hbound : (spawnedTids r.2).length < 2 ^ 31) : TidInv r.1 r.2 :=
  reachable_log (P := fun s log => (spawnedTids log).length < 2 ^ 31 → TidInv s log)
    (fun _ => tidInv_init) (fun _ _ _ _ _ _ hinv hP hmove => tidInv_move hinv hP hmove) h hbound

/-! ## What `sched_waitpid` returns -/

variable {pid options code : BitVec 32}

/-- The three outcomes of the search for a child to reap. -/
theorem TaskInv.tryReap (h : TaskInv s) (parentTid pid : BitVec 32) :
    (∃ j, DeadChild s parentTid pid j ∧ schedTryReapChild parentTid pid s =
      ((s.tasks j).tid.toInt, some (((s.tasks j).exitCode &&& 0xFF) <<< 8), schedClearTask j s)) ∨
    ((∀ j, ¬ DeadChild s parentTid pid j) ∧
      (∃ j, schedTaskIsChildOf (s.tasks j) parentTid pid = true) ∧
      schedTryReapChild parentTid pid s = (0, none, s)) ∨
    ((∀ j, schedTaskIsChildOf (s.tasks j) parentTid pid = false) ∧
      schedTryReapChild parentTid pid s = (schedWaitpidNoChild, none, s)) := by
  have hslots : ∀ j, schedTaskIsChildOf (s.tasks j) parentTid pid = true → j ∈ taskSlots := by
    intro j hj
    rw [mem_taskSlots_iff]
    intro hzero
    have hactive := active_of_isChildOf hj
    rw [(h.idle j).mpr hzero] at hactive
    cases hactive
  unfold schedTryReapChild
  dsimp only
  cases hfind : taskSlots.find? (fun j => schedTaskIsChildOf (s.tasks j) parentTid pid &&
      decide ((s.tasks j).state = .zombie)) with
  | some j =>
    have hdead := List.find?_some hfind
    simp only [Bool.and_eq_true, decide_eq_true_eq] at hdead
    exact .inl ⟨j, hdead, rfl⟩
  | none =>
    right
    have halive : ∀ j, ¬ DeadChild s parentTid pid j := by
      intro j hdead
      refine List.find?_eq_none.mp hfind j (hslots j hdead.1) ?_
      simpa [DeadChild] using hdead
    dsimp only
    split_ifs with hany
    · obtain ⟨j, -, hj⟩ := List.any_eq_true.mp hany
      exact .inl ⟨halive, ⟨j, hj⟩, rfl⟩
    · refine .inr ⟨fun j => ?_, rfl⟩
      rw [← Bool.not_eq_true]
      exact fun hj => hany (List.any_eq_true.mpr ⟨j, hslots j hj, hj⟩)

/-- A dead task's slot is all that its reaping changes. -/
theorem WaitqInv.clear (h : WaitqInv s) (hdead : (s.tasks i).state = .zombie) :
    schedClearTask i s = { s with tasks := Function.update s.tasks i .zero } := by
  have hempty : Function.update s.waitqs (.child i) (fun _ => false) = s.waitqs := by
    rw [Function.update_eq_self_iff]
    funext k
    rw [h.bit_eq]
    symm
    rw [decide_eq_false_iff_not]
    intro hk
    have hik := h.own k i hk
    subst hik
    have hwaits := (h.waiter i _ hk).2.2
    rw [hdead] at hwaits
    simp [TaskState.Waiting] at hwaits
  unfold schedClearTask schedWaitqInit Sched.setTask
  dsimp only
  rw [hempty]

/-- What a call by the task of slot `p` returns and does. -/
structure WaitpidExact (s : Sched) (p : TaskIdx) (pid options : BitVec 32) : Prop where
  /-- A positive result is the identifier of a dead child, whose slot alone is freed. -/
  reaped : 0 < (schedWaitpid pid options s).1 → ∃ i, DeadChild s (s.tasks p).tid pid i ∧
    schedWaitpid pid options s = (((s.tasks i).tid.toNat : ℤ),
      some (((s.tasks i).exitCode &&& 0xFF) <<< 8),
      { s with tasks := Function.update s.tasks i .zero })
  noChild : (schedWaitpid pid options s).1 = schedWaitpidNoChild ↔
    ∀ i, schedTaskIsChildOf (s.tasks i) (s.tasks p).tid pid = false
  /-- Otherwise nothing happens, or the caller alone is blocked on its own queue. -/
  waits : ¬ 0 < (schedWaitpid pid options s).1 →
    (schedWaitpid pid options s).1 ≠ schedWaitpidNoChild →
    (options &&& schedWaitpidWnohang ≠ 0 ∧ schedWaitpid pid options s = (0, none, s)) ∨
    (options &&& schedWaitpidWnohang = 0 ∧ ∃ t,
      schedWaitpid pid options s = (schedWaitpidBlocked, none, t) ∧
      (∀ k, k ≠ p → t.tasks k = s.tasks k) ∧ SameTask (s.tasks p) (t.tasks p) ∧
      (t.tasks p).state = .blocked ∧ (t.tasks p).waitq = some (.child p))

theorem waitpidExact (htask : TaskInv s) (hwaitq : WaitqInv s) (htid : TidInv s log)
    (hbound : (spawnedTids log).length < 2 ^ 31) (hp : schedCurrentSlot s = some p)
    (hactive : (s.tasks p).isIdle = false) (pid options : BitVec 32) :
    WaitpidExact s p pid options := by
  obtain ⟨hp', hused⟩ := schedCurrentSlot_eq_some hp
  obtain ⟨i, hdead, hreap⟩ | ⟨halive, ⟨j, hj⟩, hreap⟩ | ⟨hnone, hreap⟩ :=
    htask.tryReap (s.tasks p).tid pid
  · obtain ⟨hint, hpos⟩ := htid.toInt hbound
      ⟨used_of_isChildOf hdead.1, active_of_isChildOf hdead.1⟩
    have hcall : schedWaitpid pid options s = (((s.tasks i).tid.toNat : ℤ),
        some (((s.tasks i).exitCode &&& 0xFF) <<< 8),
        { s with tasks := Function.update s.tasks i .zero }) := by
      rw [schedWaitpid_eq options hp hactive hreap, if_pos (by omega), hint,
        hwaitq.clear hdead.2]
    have hrc : (schedWaitpid pid options s).1 = ((s.tasks i).tid.toNat : ℤ) := by rw [hcall]
    constructor
    · intro _
      exact ⟨i, hdead, hcall⟩
    · constructor
      · intro hno
        rw [hrc] at hno
        have hminus : schedWaitpidNoChild = -1 := rfl
        omega
      · intro hnone
        have hchild := hdead.1
        rw [hnone i] at hchild
        cases hchild
    · intro hneg
      rw [hrc] at hneg
      omega
  · by_cases hopt : options &&& schedWaitpidWnohang = 0
    · have hcall : schedWaitpid pid options s =
          (schedWaitpidBlocked, none, schedWaitqSleep (.child p) 0 s) := by
        rw [schedWaitpid_eq options hp hactive hreap, if_neg (by simp),
          if_neg (not_not.mpr hopt)]
      have htasks := schedWaitqSleep_tasks (.child p) 0 (hp' ▸ hused) (hp' ▸ hactive)
      rw [← hp'] at htasks
      constructor
      · intro hpos
        rw [hcall] at hpos
        cases hpos
      · rw [hcall]
        constructor
        · intro hno
          cases hno
        · intro hnone
          rw [hnone j] at hj
          cases hj
      · intro _ _
        refine .inr ⟨hopt, _, hcall, ?_, ?_, ?_, ?_⟩
        · intro k hk
          rw [htasks, Function.update_of_ne hk]
        · rw [htasks, Function.update_self]
          exact ⟨rfl, rfl, rfl, rfl, rfl⟩
        · rw [htasks, Function.update_self]
        · rw [htasks, Function.update_self]
    · have hcall : schedWaitpid pid options s = (0, none, s) := by
        rw [schedWaitpid_eq options hp hactive hreap, if_neg (by simp), if_pos hopt]
      constructor
      · intro hpos
        rw [hcall] at hpos
        cases hpos
      · rw [hcall]
        constructor
        · intro hno
          cases hno
        · intro hnone
          rw [hnone j] at hj
          cases hj
      · intro _ _
        exact .inl ⟨hopt, hcall⟩
  · have hcall : schedWaitpid pid options s = (schedWaitpidNoChild, none, s) := by
      rw [schedWaitpid_eq options hp hactive hreap]
      rfl
    constructor
    · intro hpos
      rw [hcall] at hpos
      cases hpos
    · rw [hcall]
      exact ⟨fun _ => hnone, fun _ => rfl⟩
    · intro _ hno
      rw [hcall] at hno
      exact absurd rfl hno

/-! ## The exit of a child -/

/-- A live task is found by its identifier. -/
theorem TidInv.findByTid (h : TidInv s log) (htask : TaskInv s) (hp : s.live p) :
    schedFindByTid s (s.tasks p).tid = some p := by
  unfold schedFindByTid
  rw [if_neg (htask.tid p hp.1 hp.2)]
  cases hfind : taskSlots.find? (fun i => (s.tasks i).used &&
      decide ((s.tasks i).tid = (s.tasks p).tid)) with
  | none =>
    have hslot : p ∈ taskSlots := by
      rw [mem_taskSlots_iff]
      intro hzero
      have hactive := hp.2
      rw [(htask.idle p).mpr hzero] at hactive
      cases hactive
    have hnot := List.find?_eq_none.mp hfind p hslot
    simp [hp.1] at hnot
  | some j =>
    have hj := List.find?_some hfind
    simp only [Bool.and_eq_true, decide_eq_true_eq] at hj
    have hslot := mem_taskSlots_iff.mp (List.mem_of_find?_eq_some hfind)
    have hactive := (Bool.not_eq_true _).mp (mt (htask.idle j).mp hslot)
    rw [h.unique j p ⟨hj.1, hactive⟩ hp hj.2]

/-- The exit of a child wakes a parent that waits for one. -/
theorem exit_wakes_parent (htask : TaskInv s) (hwaitq : WaitqInv s) (htid : TidInv s log)
    (hbound : (spawnedTids log).length < 2 ^ 31) {c : TaskIdx}
    (hwaits : (s.tasks p).waitq = some (.child p)) (hc : schedCurrentSlot s = some c)
    (hactive : (s.tasks c).isIdle = false) (hchild : (s.tasks c).parentTid = (s.tasks p).tid) :
    (schedExitCode code s).tasks p = (s.tasks p).woken ∧
      (schedExitCode code s).waitqs (.child p) p = false := by
  obtain ⟨rfl, hused⟩ := schedCurrentSlot_eq_some hc
  obtain ⟨hpused, hpactive, -⟩ := hwaitq.waiter p _ hwaits
  have hne : p ≠ s.currentIdx := by
    rintro rfl
    have hlt := htid.parent s.currentIdx ⟨hused, hactive⟩
    rw [hchild] at hlt
    omega
  obtain ⟨hint, -⟩ := htid.toInt hbound ⟨hpused, hpactive⟩
  rw [schedExitCode_eq code hc hactive, hchild]
  have hmoves := moves_exitTable code hused hactive
  have htasks := exitTable_tasks code s.currentIdx s
  have hnext := exitTable_nextTid code s.currentIdx s
  generalize exitTable code s.currentIdx s = d at hmoves htasks hnext ⊢
  have hd := hwaitq.moves hmoves
  have hslot : d.tasks p = s.tasks p := by rw [htasks, Function.update_of_ne hne]
  have hsame : SameTids s d := .of_update hnext htasks ⟨rfl, rfl, rfl, rfl, rfl⟩
  have htid' : TidInv d (log ++ []) := htid.same hsame rfl rfl
  have hfind := htid'.findByTid (htask.moves hmoves)
    ((hsame.live_iff p).mpr ⟨hpused, hpactive⟩)
  rw [hslot] at hfind
  unfold wakeParent
  rw [if_pos (by omega), hfind]
  obtain ⟨hwoken, hempty⟩ := hd.wakeAll (.child p)
  constructor
  · refine (hwoken p).trans ?_
    rw [if_pos ((hd.bit _ p).mpr (by rw [hslot]; exact hwaits)), hslot]
  · exact (hempty _ p).trans (if_pos rfl)

/-- Over a run with fewer than 2 ^ 31 spawns: identifiers are unique, no task is returned
twice, a call returns exactly what it has to, and a parent that is blocked on its own queue
is woken by the exit of any of its children. -/
theorem waitpid_reaps_exactly (h : Reachable schedRuns (s, log))
    (hbound : (spawnedTids log).length < 2 ^ 31) :
    (spawnedTids log).Nodup ∧ (reapedTids log).Nodup ∧
    (∀ p pid options, schedCurrentSlot s = some p → (s.tasks p).isIdle = false →
      WaitpidExact s p pid options) ∧
    ∀ p c code, (s.tasks p).waitq = some (.child p) → schedCurrentSlot s = some c →
      (s.tasks c).isIdle = false → (s.tasks c).parentTid = (s.tasks p).tid →
      (schedExitCode code s).tasks p = (s.tasks p).woken ∧
        (schedExitCode code s).waitqs (.child p) p = false := by
  have hops := reachable_schedOps h
  have htask := reachable_taskInv hops
  have hwaitq := reachable_waitqInv hops
  have htid := reachable_tidInv h hbound
  refine ⟨htid.spawned, htid.reaped, ?_, ?_⟩
  · intro p pid options hp hactive
    exact waitpidExact htask hwaitq htid hbound hp hactive pid options
  · intro p c code hwaits hc hactive hchild
    exact exit_wakes_parent htask hwaitq htid hbound hwaits hc hactive hchild

theorem reachable_runs_op (h : Reachable schedRuns (s, log)) (op : SchedOp)
    (hown : op.ownQueue s) : Reachable schedRuns (op.run s, log ++ op.events s) :=
  h.step ⟨⟨hown, rfl⟩, rfl⟩

/-- The first task spawns a second one, which runs and exits with code 7. -/
def exitedChild : Sched :=
  (SchedOp.leave 2 (some 1)).run (schedExitCode 7 (schedPumpEnter
    (schedSpawn (some 2) (schedRunEnter (schedSpawn (some 1) schedInit).2)).2))

theorem exitedChild_reachable :
    Reachable schedRuns (exitedChild, [.spawned 1, .spawned 2, .exited 2]) := by
  have hinit : Reachable schedRuns (schedInit, []) := .of_init ⟨rfl, rfl⟩
  have hfirst := reachable_runs_op hinit (.call (.spawn (some 1))) trivial
  have hselect := reachable_runs_op hfirst .select trivial
  have hsecond := reachable_runs_op hselect (.call (.spawn (some 2))) trivial
  have hpump := reachable_runs_op hsecond .pump trivial
  have hexit := reachable_runs_op hpump (.call (.exitCode 7)) trivial
  exact reachable_runs_op hexit (.leave 2 (some 1)) trivial

theorem waitpid_reaps_second_task :
    ∃ i, DeadChild exitedChild 1 (-1) i ∧ (schedWaitpid (-1) 0 exitedChild).2.2.tasks =
      Function.update exitedChild.tasks i .zero := by
  obtain ⟨-, -, hexact, -⟩ := waitpid_reaps_exactly exitedChild_reachable (by decide)
  have hcall := hexact 1 (-1) 0 (by decide) (by decide)
  obtain ⟨i, hdead, heq⟩ := hcall.reaped (by decide)
  refine ⟨i, hdead, ?_⟩
  rw [heq]

/-! ## Children of tasks that cannot wait for them -/

/-- The task that could reap slot `i`. -/
def Sched.hasReaper (s : Sched) (i : TaskIdx) : Prop :=
  ∃ p, s.live p ∧ (s.tasks p).state ≠ .zombie ∧ (s.tasks p).tid = (s.tasks i).parentTid

/-- A dead task is recorded as exited, and a live task's parent is the idle task, has
exited, or is there. -/
structure ParentInv (s : Sched) (log : SchedLog) : Prop where
  exited : ∀ i, (s.tasks i).state = .zombie → (s.tasks i).tid ∈ exitedTids log
  parent : ∀ i, s.live i → (s.tasks i).parentTid = 0 ∨
    (s.tasks i).parentTid ∈ exitedTids log ∨ s.hasReaper i

theorem parentInv_init : ParentInv schedInit [] := by
  have hdead : ∀ i, (schedInit.tasks i).state ≠ .zombie := by decide
  have hnone : ∀ i, ¬ schedInit.live i := by
    unfold Sched.live
    decide
  exact ⟨fun i hi => absurd hi (hdead i), fun i hi => absurd hi (hnone i)⟩

/-- Slots change without losing a task, and whoever is dead afterwards is recorded. -/
theorem ParentInv.same (h : ParentInv s log) (hsame : SameTids s t) {es : List SchedEvent}
    (hdead : ∀ k, (t.tasks k).state = .zombie →
      (s.tasks k).state = .zombie ∨ (s.tasks k).tid ∈ exitedTids es) :
    ParentInv t (log ++ es) := by
  have hexited : ∀ k, (t.tasks k).state = .zombie → (s.tasks k).tid ∈ exitedTids (log ++ es) := by
    intro k hk
    rw [exitedTids_append]
    obtain hbefore | hnow := hdead k hk
    · exact List.mem_append_left _ (h.exited k hbefore)
    · exact List.mem_append_right _ hnow
  constructor
  · intro k hk
    rw [(hsame.slot k).tid]
    exact hexited k hk
  · intro k hk
    rw [(hsame.slot k).parentTid]
    obtain hzero | hgone | ⟨p, hp, halive, htid⟩ := h.parent k ((hsame.live_iff k).mp hk)
    · exact .inl hzero
    · rw [exitedTids_append]
      exact .inr (.inl (List.mem_append_left _ hgone))
    · by_cases hzombie : (t.tasks p).state = .zombie
      · rw [← htid]
        exact .inr (.inl (hexited p hzombie))
      · refine .inr (.inr ⟨p, (hsame.live_iff p).mpr hp, hzombie, ?_⟩)
        rw [(hsame.slot p).tid, (hsame.slot k).parentTid]
        exact htid

theorem ParentInv.reap (h : ParentInv s log) (hdead : (s.tasks i).state = .zombie)
    (es : List SchedEvent) : ParentInv (schedClearTask i s) (log ++ es) := by
  have hzero : ((schedClearTask i s).tasks i).state = .unused := by
    change (Function.update s.tasks i .zero i).state = .unused
    rw [Function.update_self]
    rfl
  constructor
  · intro k hk
    rw [exitedTids_append]
    by_cases hki : k = i
    · subst hki
      rw [hzero] at hk
      cases hk
    · rw [clear_tasks hki] at hk ⊢
      exact List.mem_append_left _ (h.exited k hk)
  · intro k hk
    obtain ⟨hki, hk⟩ := (live_clear k).mp hk
    rw [clear_tasks hki, exitedTids_append]
    obtain hparent | hgone | ⟨p, hp, halive, htid⟩ := h.parent k hk
    · exact .inl hparent
    · exact .inr (.inl (List.mem_append_left _ hgone))
    · have hpi : p ≠ i := by
        rintro rfl
        exact halive hdead
      refine .inr (.inr ⟨p, (live_clear p).mpr ⟨hpi, hp⟩, ?_, ?_⟩)
      · rw [clear_tasks hpi]
        exact halive
      · rw [clear_tasks hpi, clear_tasks hki]
        exact htid

theorem ParentInv.spawn (h : ParentInv s log) (hinv : TaskInv s)
    (htasks : t.tasks = Function.update s.tasks i b) (hunused : (s.tasks i).used = false)
    (hstate : b.state = .runnable)
    (hparent : b.parentTid = 0 ∨ b.parentTid = (s.tasks s.currentIdx).tid) (es : List SchedEvent) :
    ParentInv t (log ++ es) := by
  have hslot : ∀ k, k ≠ i → t.tasks k = s.tasks k := fun k hk => by
    rw [htasks, Function.update_of_ne hk]
  have hnew : t.tasks i = b := by rw [htasks, Function.update_self]
  have hne : ∀ k, s.live k → k ≠ i := by
    rintro k hk rfl
    rw [hk.1] at hunused
    cases hunused
  have hlive : ∀ k, s.live k → t.live k := fun k hk => by
    unfold Sched.live
    rw [hslot k (hne k hk)]
    exact hk
  constructor
  · intro k hk
    rw [exitedTids_append]
    by_cases hki : k = i
    · rw [hki, hnew, hstate] at hk
      cases hk
    · rw [hslot k hki] at hk ⊢
      exact List.mem_append_left _ (h.exited k hk)
  · intro k hk
    rw [exitedTids_append]
    by_cases hki : k = i
    · subst hki
      rw [hnew]
      obtain hzero | ⟨hcur, heq⟩ := hinv.parent_cases hparent
      · exact .inl hzero
      · rw [heq]
        by_cases hdead : (s.tasks s.currentIdx).state = .zombie
        · exact .inr (.inl (List.mem_append_left _ (h.exited _ hdead)))
        · refine .inr (.inr ⟨s.currentIdx, hlive _ hcur, ?_, ?_⟩)
          · rw [hslot _ (hne _ hcur)]
            exact hdead
          · rw [hslot _ (hne _ hcur), hnew]
            exact heq.symm
    · have hk' : s.live k := by
        unfold Sched.live at hk ⊢
        rwa [hslot k hki] at hk
      rw [hslot k hki]
      obtain hzero | hgone | ⟨p, hp, halive, htid⟩ := h.parent k hk'
      · exact .inl hzero
      · exact .inr (.inl (List.mem_append_left _ hgone))
      · refine .inr (.inr ⟨p, hlive p hp, ?_, ?_⟩)
        · rw [hslot p (hne p hp)]
          exact halive
        · rw [hslot p (hne p hp), hslot k hki]
          exact htid

theorem ParentInv.move {es : List SchedEvent} (h : ParentInv s log) (hinv : TaskInv s)
    (hmove : SchedMove op s₀ s es t) : ParentInv t (log ++ es) := by
  have hother : ∀ {k i : TaskIdx} {b : TaskSlot}, t.tasks = Function.update s.tasks i b →
      (b.state = .zombie → (s.tasks i).state = .zombie ∨ (s.tasks i).tid ∈ exitedTids es) →
      (t.tasks k).state = .zombie →
      (s.tasks k).state = .zombie ∨ (s.tasks k).tid ∈ exitedTids es := by
    intro k i b htasks hb hk
    rw [htasks, Function.update_apply] at hk
    split_ifs at hk with hki
    · rw [hki]
      exact hb hk
    · exact .inl hk
  cases hmove with
  | state ht hsame _ _ hstate =>
    refine h.same (.of_update ht.nextTid ht.tasks hsame) fun k => hother ht.tasks ?_
    exact fun hdead => .inl (hstate.zombie hdead)
  | die ht _ _ _ _ _ hsame =>
    refine h.same (.of_update ht.nextTid ht.tasks hsame) fun k => hother ht.tasks ?_
    exact fun _ => .inr (List.mem_singleton_self _)
  | detach k =>
    refine h.same (.of_update ?_ (detach_tasks k s) ⟨rfl, rfl, rfl, rfl, rfl⟩) fun l =>
      hother (detach_tasks k s) .inl
    unfold schedDetachWaitq
    split <;> rfl
  | attach ht _ _ _ _ _ _ hsame _ _ hblocked =>
    refine h.same (.of_update ht.nextTid ht.tasks hsame) fun k => hother ht.tasks ?_
    intro hdead
    rw [hblocked] at hdead
    cases hdead
  | reap k hop hused hactive hdead => exact h.reap hdead _
  | spawn ht hop hslot hunused htid hused hactive hstate hwaitq hparent =>
    exact h.spawn hinv ht.tasks hunused hstate hparent _

theorem reachable_parentInv {r : Sched × SchedLog} (h : Reachable schedRuns r) :
    ParentInv r.1 r.2 :=
  reachable_log parentInv_init (fun _ _ _ _ _ _ hinv hP hmove => hP.move hinv hmove) h

/-- A child of the idle task keeps its slot: nobody who can wait has identifier zero. -/
theorem SchedMove.idleChild {es : List SchedEvent} (hmove : SchedMove op s₀ s es t)
    (hinv : TaskInv s) (h : s.live i ∧ (s.tasks i).parentTid = 0) :
    t.live i ∧ (t.tasks i).parentTid = 0 := by
  have hkept : SameTids s t → t.live i ∧ (t.tasks i).parentTid = 0 := fun hsame =>
    ⟨(hsame.live_iff i).mpr h.1, (hsame.slot i).parentTid.trans h.2⟩
  cases hmove with
  | state ht hsame => exact hkept (.of_update ht.nextTid ht.tasks hsame)
  | die ht _ _ _ _ _ hsame => exact hkept (.of_update ht.nextTid ht.tasks hsame)
  | detach k =>
    refine hkept (.of_update ?_ (detach_tasks k s) ⟨rfl, rfl, rfl, rfl, rfl⟩)
    unfold schedDetachWaitq
    split <;> rfl
  | attach ht _ _ _ _ _ _ hsame => exact hkept (.of_update ht.nextTid ht.tasks hsame)
  | reap k hop hused hactive hdead hcaller hcallerActive hparent =>
    have hne : i ≠ k := by
      rintro rfl
      exact hinv.tid _ hcaller hcallerActive (hparent.symm.trans h.2)
    exact ⟨(live_clear i).mpr ⟨hne, h.1⟩, by rw [clear_tasks hne]; exact h.2⟩
  | @spawn k b t ht hop hslot hunused =>
    have hne : i ≠ k := by
      rintro rfl
      rw [h.1.1] at hunused
      cases hunused
    unfold Sched.live
    rw [ht.tasks, Function.update_of_ne hne]
    exact h

theorem idleChild_run {ops : List SchedOp} (hreach : Reachable schedOps s)
    (h : s.live i ∧ (s.tasks i).parentTid = 0) (hrun : Run schedOps s ops t) :
    t.live i ∧ (t.tasks i).parentTid = 0 := by
  have hboth := hrun.keeps (P := fun u => TaskInv u ∧ u.live i ∧ (u.tasks i).parentTid = 0) ?_
    ⟨reachable_taskInv hreach, h⟩
  · exact hboth.2
  · rintro u op _ hu ⟨hown, rfl⟩
    obtain ⟨ls, hmoves, -⟩ := op.moves hown
    exact hmoves.keeps (P := fun u => TaskInv u ∧ u.live i ∧ (u.tasks i).parentTid = 0)
      (fun _ _ _ hv hmove => ⟨hv.1.move hmove, SchedMove.idleChild hmove hv.1 hv.2⟩) hu

/-- A dead task whose parent is neither the idle task nor has itself exited can be reaped
by that parent; a dead child of the idle task keeps its slot for ever. -/
theorem zombie_has_reaper_or_stays (h : Reachable schedRuns (s, log))
    (hdead : (s.tasks i).state = .zombie) :
    ((s.tasks i).parentTid ≠ 0 → (s.tasks i).parentTid ∉ exitedTids log →
      ∃ p, (s.tasks p).used = true ∧ (s.tasks p).isIdle = false ∧ (s.tasks p).state ≠ .zombie ∧
        (s.tasks p).tid = (s.tasks i).parentTid) ∧
    ((s.tasks i).parentTid = 0 →
      ∀ ops t, Run schedOps s ops t → (t.tasks i).used = true) := by
  have hops := reachable_schedOps h
  have hlive : s.live i := (reachable_taskInv hops).dead i hdead
  constructor
  · intro hidle hgone
    obtain hzero | hexited | ⟨p, hp, halive, htid⟩ := (reachable_parentInv h).parent i hlive
    · exact absurd hzero hidle
    · exact absurd hexited hgone
    · exact ⟨p, hp.1, hp.2, halive, htid⟩
  · intro hidle ops t hrun
    exact (idleChild_run hops ⟨hlive, hidle⟩ hrun).1.1

theorem second_task_has_reaper :
    (exitedChild.tasks 2).state = .zombie ∧
      ∃ p, (exitedChild.tasks p).used = true ∧ (exitedChild.tasks p).isIdle = false ∧
        (exitedChild.tasks p).state ≠ .zombie ∧
        (exitedChild.tasks p).tid = (exitedChild.tasks 2).parentTid :=
  ⟨by decide, (zombie_has_reaper_or_stays exitedChild_reachable (by decide)).1 (by decide)
    (by decide)⟩

/-- The first task is spawned by the idle task; once dead it has no one to reap it. -/
theorem first_task_has_no_reaper :
    ¬ ∀ s i, Reachable schedOps s → (s.tasks i).state = .zombie →
      ∃ p, (s.tasks p).used = true ∧ (s.tasks p).isIdle = false ∧ (s.tasks p).state ≠ .zombie ∧
        (s.tasks p).tid = (s.tasks i).parentTid := by
  intro hall
  have hreaper := hall exitedTask 1 exitedTask_reachable.of_restrict (by decide)
  revert hreaper
  decide

end LampVm
