import LampVm.SchedMoves

/-!
# Wait queues

Whether a task waits on a queue is stored twice: as a bit of the queue and as a pointer
in the task's slot. Both agree in every state the scheduler can reach, and whoever waits
is a task that can be woken; so a wake-up is never swallowed.
-/
namespace LampVm

open Transition

/-- The state of a task that a wake-up makes runnable. -/
def TaskState.Waiting (a : TaskState) : Prop := a = .blocked ∨ a = .sleeping

structure WaitqInv (s : Sched) : Prop where
  idle : ∀ i, (s.tasks i).isIdle = true ↔ i = 0
  bit : ∀ q i, s.waitqs q i = true ↔ (s.tasks i).waitq = some q
  waiter : ∀ i q, (s.tasks i).waitq = some q →
    (s.tasks i).used = true ∧ (s.tasks i).isIdle = false ∧ (s.tasks i).state.Waiting
  /-- Nobody else sleeps on the queue for a task's children. -/
  own : ∀ i k, (s.tasks i).waitq = some (.child k) → k = i

variable {op : SchedOp} {s₀ s t : Sched} {i : TaskIdx} {q : WaitqRef} {b : TaskSlot}

theorem WaitqInv.free_of_state (h : WaitqInv s) (hstate : ¬ (s.tasks i).state.Waiting) :
    (s.tasks i).waitq = none := by
  cases hq : (s.tasks i).waitq with
  | none => rfl
  | some q => exact absurd (h.waiter i q hq).2.2 hstate

theorem WaitqInv.free_of_unused (h : WaitqInv s) (hused : (s.tasks i).used = false) :
    (s.tasks i).waitq = none := by
  cases hq : (s.tasks i).waitq with
  | none => rfl
  | some q =>
    rw [(h.waiter i q hq).1] at hused
    cases hused

/-- One slot is replaced, and its bits are those of its new pointer. -/
theorem WaitqInv.replace (h : WaitqInv s) (htasks : t.tasks = Function.update s.tasks i b)
    (hbits : ∀ q k, t.waitqs q k = if k = i then decide (b.waitq = some q) else s.waitqs q k)
    (hidle : b.isIdle = true ↔ i = 0)
    (hwaiter : ∀ q, b.waitq = some q → b.used = true ∧ b.isIdle = false ∧ b.state.Waiting)
    (hown : ∀ k, b.waitq = some (.child k) → k = i) : WaitqInv t := by
  have hslot : ∀ k, t.tasks k = if k = i then b else s.tasks k := fun k => by
    rw [htasks, Function.update_apply]
  constructor
  · intro k
    rw [hslot]
    split_ifs with hk
    · rw [hk, hidle]
    · exact h.idle k
  · intro q k
    rw [hslot, hbits]
    split_ifs with hk
    · exact decide_eq_true_iff
    · exact h.bit q k
  · intro k q hq
    rw [hslot] at hq ⊢
    split_ifs at hq ⊢ with hk
    · exact hwaiter q hq
    · exact h.waiter k q hq
  · intro k j hq
    rw [hslot] at hq
    split_ifs at hq with hk
    · rw [hk]
      exact hown j hq
    · exact h.own k j hq

theorem WaitqInv.bit_eq (h : WaitqInv s) (q : WaitqRef) (k : TaskIdx) :
    s.waitqs q k = decide ((s.tasks k).waitq = some q) := by
  rw [Bool.eq_iff_iff, h.bit, decide_eq_true_iff]

/-- A change of one slot that leaves all queues alone. -/
theorem WaitqInv.oneSlot (h : WaitqInv s) (ht : OneSlot s i b t) (hsame : SameTask (s.tasks i) b)
    (hwaitq : b.waitq = (s.tasks i).waitq) (hstate : ∀ q, b.waitq = some q → b.state.Waiting) :
    WaitqInv t := by
  refine h.replace ht.tasks ?_ ?_ ?_ ?_
  · intro q k
    rw [ht.waitqs, hwaitq, ← h.bit_eq]
    split_ifs with hk
    · rw [hk]
    · rfl
  · rw [hsame.isIdle, h.idle]
  · intro q hq
    have hold := h.waiter i q (hwaitq ▸ hq)
    exact ⟨hsame.used.trans hold.1, hsame.isIdle.trans hold.2.1, hstate q hq⟩
  · intro k hq
    exact h.own i k (hwaitq ▸ hq)

theorem StateMove.waiting {a : TaskState} (hmove : StateMove op s₀ s i a) (h : WaitqInv s)
    (hq : (s.tasks i).waitq = some q) : a.Waiting := by
  have hwaits := (h.waiter i q hq).2.2
  cases hmove with
  | keep => exact hwaits
  | wake _ hfree =>
    rw [hfree] at hq
    cases hq
  | enter hrunnable =>
    rw [hrunnable] at hwaits
    simp [TaskState.Waiting] at hwaits
  | pause hrunning =>
    rw [hrunning] at hwaits
    simp [TaskState.Waiting] at hwaits
  | sleep => exact .inr rfl

/-- One bit of one queue is written. -/
theorem update_bit (w : WaitqRef → TaskIdx → Bool) (q q' : WaitqRef) (i k : TaskIdx) (v : Bool) :
    Function.update w q (Function.update (w q) i v) q' k =
      if q' = q ∧ k = i then v else w q' k := by
  by_cases hq : q' = q
  · subst hq
    by_cases hk : k = i
    · simp [hk]
    · simp [hk]
  · simp [hq]

theorem WaitqInv.detach (h : WaitqInv s) (i : TaskIdx) : WaitqInv (schedDetachWaitq i s) := by
  unfold schedDetachWaitq
  cases hq : (s.tasks i).waitq with
  | none => exact h
  | some q =>
    refine h.replace rfl ?_ (h.idle i) (fun _ hnone => by cases hnone) (fun _ hnone => by cases hnone)
    intro q' k
    refine (update_bit s.waitqs q q' i k false).trans ?_
    by_cases hk : k = i
    · subst hk
      simp [h.bit_eq, hq, eq_comm]
    · simp [hk]

theorem WaitqInv.attach (h : WaitqInv s) (ht : OneSlot (s.enqueue q i) i b t)
    (hfree : (s.tasks i).waitq = none) (hused : b.used = true)
    (hactive : b.isIdle = false) (hidle : (s.tasks i).isIdle = false)
    (hown : q = .console ∨ q = .child i) (hwaitq : b.waitq = some q)
    (hblocked : b.state = .blocked) : WaitqInv t := by
  refine h.replace ht.tasks ?_ ?_ ?_ ?_
  · intro q' k
    rw [ht.waitqs, hwaitq]
    refine (update_bit s.waitqs q q' i k true).trans ?_
    by_cases hk : k = i
    · subst hk
      simp [h.bit_eq, hfree, eq_comm]
    · simp [hk]
  · rw [hactive, ← h.idle, hidle]
  · intro q' _
    exact ⟨hused, hactive, .inl hblocked⟩
  · intro k hq
    rw [hwaitq] at hq
    obtain rfl | rfl := hown
    · cases hq
    · cases hq
      rfl

/-- A slot that waits on nothing is replaced by one that waits on nothing, and the queue
for its children is emptied. -/
theorem WaitqInv.renew (h : WaitqInv s) (htasks : t.tasks = Function.update s.tasks i b)
    (hwaitqs : t.waitqs = (schedWaitqInit (.child i) s).waitqs) (hfree : (s.tasks i).waitq = none)
    (hactive : (s.tasks i).isIdle = false) (hidle : b.isIdle = false) (hwaitq : b.waitq = none) :
    WaitqInv t := by
  refine h.replace htasks ?_ ?_ ?_ ?_
  · intro q k
    rw [hwaitqs, hwaitq]
    change Function.update s.waitqs (.child i) (fun _ => false) q k = _
    rw [Function.update_apply]
    by_cases hk : k = i
    · by_cases hq : q = .child i
      · simp [hk, hq]
      · simp [hk, hq, h.bit_eq, hfree]
    · by_cases hq : q = .child i
      · have hnot : (s.tasks k).waitq ≠ some (.child i) := fun hq' => hk (h.own k i hq').symm
        simp [hk, hq, h.bit_eq, hnot]
      · simp [hk, hq]
  · rw [hidle, ← h.idle, hactive]
  · intro q hq
    rw [hwaitq] at hq
    cases hq
  · intro k hq
    rw [hwaitq] at hq
    cases hq

theorem WaitqInv.move {es : List SchedEvent} (h : WaitqInv s) (hmove : SchedMove op s₀ s es t) :
    WaitqInv t := by
  cases hmove with
  | state ht hsame hwaitq hcode hstate =>
    exact h.oneSlot ht hsame hwaitq fun q hq => hstate.waiting h (hwaitq ▸ hq)
  | die ht hself hop hused hactive hfree hsame hwaitq hdead =>
    refine h.oneSlot ht hsame (hwaitq.trans hfree.symm) fun q hq => ?_
    rw [hwaitq] at hq
    cases hq
  | detach i => exact h.detach i
  | attach ht hself hrests hused hactive hfree hown hsame hwaitq hcode hblocked =>
    exact h.attach ht hfree (hsame.used.trans hused) (hsame.isIdle.trans hactive) hactive hown
      hwaitq hblocked
  | reap i hop hused hactive hdead =>
    refine h.renew (i := i) rfl rfl (h.free_of_state ?_) hactive rfl rfl
    rw [hdead]
    simp [TaskState.Waiting]
  | spawn ht hop hslot hunused htid hused hactive hstate hwaitq hparent =>
    refine h.renew ht.tasks ht.waitqs (h.free_of_unused hunused) ?_ hactive hwaitq
    rw [← Bool.not_eq_true, h.idle]
    exact hslot

theorem waitqInv_init : WaitqInv schedInit := by
  have hfree : ∀ i, (schedInit.tasks i).waitq = none := by decide
  constructor
  · decide
  · intro q i
    rw [hfree]
    simp [schedInit]
  · intro i q hq
    rw [hfree] at hq
    cases hq
  · intro i k hq
    rw [hfree] at hq
    cases hq

theorem WaitqInv.moves {es : List SchedEvent} (h : WaitqInv s) (hmoves : Moves op s₀ s es t) :
    WaitqInv t := by
  obtain ⟨ls, hrun, -⟩ := hmoves
  exact hrun.keeps (fun _ _ _ hinv hmove => hinv.move hmove) h

theorem reachable_waitqInv (h : Reachable schedOps s) : WaitqInv s :=
  reachable_of_moves waitqInv_init (fun _ _ _ _ _ hinv hmove => hinv.move hmove) h

/-! ## Waking -/

/-- What a wake-up does to a waiter: its slot and its bit, and nothing else. -/
theorem WaitqInv.wakeSlot (h : WaitqInv s) (hbit : s.waitqs q i = true) :
    (schedWakeSlot i s).tasks = Function.update s.tasks i (s.tasks i).woken ∧
      ∀ q' k, (schedWakeSlot i s).waitqs q' k =
        if q' = q ∧ k = i then false else s.waitqs q' k := by
  have hq := (h.bit q i).mp hbit
  obtain ⟨hused, hactive, hwaits⟩ := h.waiter i q hq
  have hwake : schedWakeSlot i s = wakeTask i s := by
    unfold schedWakeSlot
    rw [if_neg (by simp [hused, hactive]), if_neg]
    rintro ⟨hblocked, hsleeping⟩
    exact hwaits.elim hblocked hsleeping
  rw [hwake]
  constructor
  · exact wakeTask_tasks i s
  · intro q' k
    change (schedDetachWaitq i s).waitqs q' k = _
    unfold schedDetachWaitq
    rw [hq]
    exact update_bit s.waitqs q q' i k false

theorem WaitqInv.mem_taskSlots (h : WaitqInv s) (hbit : s.waitqs q i = true) : i ∈ taskSlots := by
  rw [mem_taskSlots_iff]
  intro hi
  have hactive := (h.waiter i q ((h.bit q i).mp hbit)).2.1
  rw [(h.idle i).mpr hi] at hactive
  cases hactive

/-- Waking one task of a queue that has one. -/
theorem WaitqInv.wakeOne (h : WaitqInv s) (hbit : s.waitqs q i = true) :
    ∃ j, s.waitqs q j = true ∧
      (schedWaitqWakeOne q s).tasks = Function.update s.tasks j (s.tasks j).woken ∧
      ∀ q' k, (schedWaitqWakeOne q s).waitqs q' k =
        if q' = q ∧ k = j then false else s.waitqs q' k := by
  unfold schedWaitqWakeOne
  cases hfind : taskSlots.find? (s.waitqs q) with
  | none =>
    have hnone := List.find?_eq_none.mp hfind i (h.mem_taskSlots hbit)
    exact absurd hbit hnone
  | some j =>
    have hj : s.waitqs q j = true := List.find?_some hfind
    exact ⟨j, hj, h.wakeSlot hj⟩

/-- The part of the loop over the slots in `l`. -/
theorem WaitqInv.wakeAll_foldl (h : WaitqInv s) (q : WaitqRef) (l : List TaskIdx) :
    (∀ k, (l.foldl (fun s i => if s.waitqs q i then schedWakeSlot i s else s) s).tasks k =
      if k ∈ l ∧ s.waitqs q k = true then (s.tasks k).woken else s.tasks k) ∧
    ∀ q' k, (l.foldl (fun s i => if s.waitqs q i then schedWakeSlot i s else s) s).waitqs q' k =
      if q' = q ∧ k ∈ l then false else s.waitqs q' k := by
  induction l generalizing s with
  | nil => simp
  | cons i l ih =>
    rw [List.foldl_cons]
    by_cases hbit : s.waitqs q i = true
    · obtain ⟨htasks, hbits⟩ := h.wakeSlot hbit
      obtain ⟨ihtasks, ihbits⟩ := ih (h.moves (moves_wakeSlot .tick s i s))
      rw [if_pos hbit]
      constructor
      · intro k
        rw [ihtasks k, hbits, htasks, Function.update_apply]
        by_cases hk : k = i
        · subst hk
          simp [hbit]
        · simp [hk]
      · intro q' k
        rw [ihbits q' k, hbits]
        by_cases hk : k = i
        · subst hk
          by_cases hq : q' = q <;> simp [hq]
        · simp [hk]
    · obtain ⟨ihtasks, ihbits⟩ := ih h
      rw [if_neg hbit]
      constructor
      · intro k
        rw [ihtasks k]
        by_cases hk : k = i
        · subst hk
          simp [hbit]
        · simp [hk]
      · intro q' k
        rw [ihbits q' k]
        by_cases hk : k = i
        · subst hk
          by_cases hq : q' = q
          · subst hq
            simp [hbit]
          · simp [hq]
        · simp [hk]

/-- Waking all tasks of a queue. -/
theorem WaitqInv.wakeAll (h : WaitqInv s) (q : WaitqRef) :
    (∀ k, (schedWaitqWakeAll q s).tasks k =
      if s.waitqs q k = true then (s.tasks k).woken else s.tasks k) ∧
    ∀ q' k, (schedWaitqWakeAll q s).waitqs q' k = if q' = q then false else s.waitqs q' k := by
  obtain ⟨htasks, hbits⟩ := h.wakeAll_foldl q taskSlots
  constructor
  · intro k
    refine (htasks k).trans ?_
    by_cases hbit : s.waitqs q k = true
    · rw [if_pos ⟨h.mem_taskSlots hbit, hbit⟩, if_pos hbit]
    · rw [if_neg fun hk => hbit hk.2, if_neg hbit]
  · intro q' k
    refine (hbits q' k).trans ?_
    by_cases hq : q' = q
    · subst hq
      by_cases hk : k ∈ taskSlots
      · rw [if_pos ⟨rfl, hk⟩, if_pos rfl]
      · rw [if_neg fun h => hk h.2, if_pos rfl, ← Bool.not_eq_true]
        exact fun hbit => hk (h.mem_taskSlots hbit)
    · rw [if_neg fun h => hq h.1, if_neg hq]

/-- In every reachable state a bit of a queue says the same as the pointer in the slot,
and whoever waits can be woken: waking one task of a queue that has one makes exactly one
waiter runnable and takes it off the queue, waking all makes all of them runnable and
empties it, and neither touches another task. -/
theorem waitq_bits_are_waiters (h : Reachable schedOps s) (q : WaitqRef) :
    (∀ i, s.waitqs q i = true ↔ (s.tasks i).waitq = some q) ∧
    (∀ i, s.waitqs q i = true → (s.tasks i).used = true ∧ (s.tasks i).isIdle = false ∧
      ((s.tasks i).state = .blocked ∨ (s.tasks i).state = .sleeping)) ∧
    ((∃ i, s.waitqs q i = true) → ∃ j, s.waitqs q j = true ∧
      (schedWaitqWakeOne q s).tasks = Function.update s.tasks j (s.tasks j).woken ∧
      ∀ q' k, (schedWaitqWakeOne q s).waitqs q' k =
        if q' = q ∧ k = j then false else s.waitqs q' k) ∧
    (∀ k, (schedWaitqWakeAll q s).tasks k =
      if s.waitqs q k = true then (s.tasks k).woken else s.tasks k) ∧
    ∀ q' k, (schedWaitqWakeAll q s).waitqs q' k = if q' = q then false else s.waitqs q' k := by
  have hinv := reachable_waitqInv h
  refine ⟨hinv.bit q, fun i hbit => hinv.waiter i q ((hinv.bit q i).mp hbit), ?_, hinv.wakeAll q⟩
  rintro ⟨i, hbit⟩
  exact hinv.wakeOne hbit

/-- A task that waits for the console. -/
def consoleWaiter : Sched :=
  schedWaitqSleep .console 0 (schedRunEnter (schedSpawn (some 1) schedInit).2)

theorem consoleWaiter_reachable : Reachable schedOps consoleWaiter := by
  have hinit : Reachable schedOps schedInit := .of_init rfl
  have hspawn := reachable_op hinit (.call (.spawn (some 1))) trivial
  have hselect := reachable_op hspawn .select trivial
  exact reachable_op hselect (.call (.waitqSleep .console 0)) (.inl rfl)

theorem waitq_bits_are_waiters_console :
    consoleWaiter.waitqs .console 1 = true ∧
      (schedWaitqWakeOne .console consoleWaiter).waitqs .console 1 = false := by
  have hbit : consoleWaiter.waitqs .console 1 = true := by decide
  obtain ⟨hbits, -, hone, -⟩ := waitq_bits_are_waiters consoleWaiter_reachable .console
  obtain ⟨j, hj, -, hqs⟩ := hone ⟨1, hbit⟩
  have honly : ∀ j, consoleWaiter.waitqs .console j = true → j = 1 := by decide
  refine ⟨hbit, ?_⟩
  rw [hqs, if_pos ⟨rfl, (honly j hj).symm⟩]

end LampVm
