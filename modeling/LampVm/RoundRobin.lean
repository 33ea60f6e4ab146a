import LampVm.Reentry
import LampVm.Slotwise
import Mathlib.Data.Finset.Card

/-!
# Round robin

`sched_run` selects the first runnable slot behind the current one. While a callback waits,
other callbacks run inside it and the current slot changes, but each of them puts it back; so
at every selection of `sched_run` the current slot is the one it selected last. With every
selection that passes over a runnable task there are fewer slots left that can come before it.
-/
namespace LampVm

open Transition

/-! ## One selection -/

/-- The slots that can be selected before slot `i`. -/
def slotsBefore (current i : TaskIdx) : Finset TaskIdx :=
  Finset.univ.filter fun j => j ≠ 0 ∧ pickDistance current j < pickDistance current i

section Selection

variable {s : Sched} {current i j k : TaskIdx}

theorem mem_slotsBefore : j ∈ slotsBefore current i ↔
    j ≠ 0 ∧ pickDistance current j < pickDistance current i := by
  simp [slotsBefore]

theorem schedIdxRunnable_ne_zero (h : schedIdxRunnable s i = true) : i ≠ 0 := by
  rintro rfl
  cases h

/-- Neither the idle slot nor slot `i` itself comes before slot `i`. -/
theorem slotsBefore_card (hi : i ≠ 0) : (slotsBefore current i).card ≤ schedMaxTasks - 2 := by
  have hsub : slotsBefore current i ⊆ Finset.univ \ {0, i} := by
    intro j hj
    obtain ⟨hne, hlt⟩ := mem_slotsBefore.mp hj
    have hji : j ≠ i := by
      rintro rfl
      exact lt_irrefl _ hlt
    simp [hne, hji]
  refine (Finset.card_le_card hsub).trans ?_
  rw [Finset.card_sdiff_of_subset (Finset.subset_univ _), Finset.card_pair hi.symm,
    Finset.card_univ, Fintype.card_fin]

/-- With a runnable task there is a selection, and it is the nearest runnable one. -/
theorem schedPickNextIdx_nearest (h : schedIdxRunnable s i = true) :
    schedIdxRunnable s (schedPickNextIdx s) = true ∧
      ∀ j, pickDistance s.currentIdx j < pickDistance s.currentIdx (schedPickNextIdx s) →
        schedIdxRunnable s j = false := by
  obtain ⟨j, hj⟩ : ∃ j, (pickOrder s.currentIdx).find? (schedIdxRunnable s) = some j := by
    rw [← Option.isSome_iff_exists, List.find?_isSome]
    have hmem : i ∈ pickOrder s.currentIdx := by
      refine List.mem_map.mpr ⟨pickDistance s.currentIdx i, List.mem_finRange _, ?_⟩
      exact add_pickDistance s.currentIdx i
    exact ⟨i, hmem, h⟩
  have hpick : schedPickNextIdx s = j := by rw [schedPickNextIdx, hj, Option.getD_some]
  rw [hpick]
  exact find_pickOrder.mp hj

/-- The idle slot is selected only when no other is runnable. -/
theorem schedPickNextIdx_idle (h : schedPickNextIdx s = 0) (i : TaskIdx) :
    schedIdxRunnable s i = false := by
  by_contra hne
  have hpick := (schedPickNextIdx_nearest (Bool.eq_true_of_not_eq_false hne)).1
  exact schedIdxRunnable_ne_zero hpick h

theorem pickDistance_toNat (current i : TaskIdx) :
    (pickDistance current i).val = (i.val + (15 - current.val)) % 16 := by
  have hc : current.val < 16 := current.isLt
  have hi : i.val < 16 := i.isLt
  rw [pickDistance, Fin.sub_def, Fin.sub_def]
  change (16 - 1 + (16 - current.val + i.val) % 16) % 16 = _
  omega

/-- What comes before slot `i` from a slot nearer than it also does from the current one. -/
theorem pickDistance_lt (hj : pickDistance current j < pickDistance current i)
    (hk : pickDistance j k < pickDistance j i) :
    pickDistance current k < pickDistance current i ∧ k ≠ j := by
  have hclt : current.val < 16 := current.isLt
  have hilt : i.val < 16 := i.isLt
  have hjlt : j.val < 16 := j.isLt
  have hklt : k.val < 16 := k.isLt
  rw [Fin.lt_def, pickDistance_toNat, pickDistance_toNat] at hj hk
  rw [Fin.lt_def, pickDistance_toNat, pickDistance_toNat, Ne, Fin.ext_iff]
  omega

/-- A selection that passes over a runnable task has fewer slots left before it. -/
theorem slotsBefore_decrease (h : schedIdxRunnable s i = true) (hne : schedPickNextIdx s ≠ i) :
    (slotsBefore (schedPickNextIdx s) i).card < (slotsBefore s.currentIdx i).card := by
  obtain ⟨hpick, hnearest⟩ := schedPickNextIdx_nearest h
  have hlt : pickDistance s.currentIdx (schedPickNextIdx s) < pickDistance s.currentIdx i := by
    refine lt_of_le_of_ne (not_lt.mp fun hgt => ?_) fun heq => hne ?_
    · exact Bool.false_ne_true ((hnearest i hgt).symm.trans h)
    · rw [← add_pickDistance s.currentIdx (schedPickNextIdx s), heq, add_pickDistance]
  refine Finset.card_lt_card (Finset.ssubset_iff_of_subset ?_ |>.mpr ?_)
  · intro k hk
    obtain ⟨hk0, hklt⟩ := mem_slotsBefore.mp hk
    exact mem_slotsBefore.mpr ⟨hk0, (pickDistance_lt hlt hklt).1⟩
  · refine ⟨schedPickNextIdx s, mem_slotsBefore.mpr ⟨schedIdxRunnable_ne_zero hpick, hlt⟩, ?_⟩
    intro hmem
    exact (pickDistance_lt hlt (mem_slotsBefore.mp hmem).2).2 rfl

/-- In a row of selections, each made from the slot selected before it, a task that is always
runnable is selected once the slots before it are used up. -/
theorem exists_picked {l : List Sched}
    (hrow : (s :: l).IsChain fun s t => t.currentIdx = schedPickNextIdx s)
    (hrun : ∀ t ∈ s :: l, schedIdxRunnable t i = true)
    (hlen : (slotsBefore s.currentIdx i).card ≤ l.length) :
    ∃ t ∈ s :: l, schedPickNextIdx t = i := by
  induction l generalizing s with
  | nil =>
    by_cases hpick : schedPickNextIdx s = i
    · exact ⟨s, List.mem_cons_self, hpick⟩
    · have hless := slotsBefore_decrease (hrun s List.mem_cons_self) hpick
      exact absurd (hless.trans_le hlen) (Nat.not_lt_zero _)
  | cons t l ih =>
    by_cases hpick : schedPickNextIdx s = i
    · exact ⟨s, List.mem_cons_self, hpick⟩
    · have hless := slotsBefore_decrease (hrun s List.mem_cons_self) hpick
      obtain ⟨hnext, hrest⟩ := List.isChain_cons_cons.mp hrow
      rw [← hnext] at hless
      obtain ⟨u, hu, hpicked⟩ := ih hrest (fun u hu => hrun u (List.mem_cons_of_mem s hu))
        (Nat.le_of_lt_succ (hless.trans_le hlen))
      exact ⟨u, List.mem_cons_of_mem s hu, hpicked⟩

end Selection

/-! ## The selections of `sched_run` -/

/-- The scheduler at a selection: `sched_run` comes to its call of `sched_pick_next_idx`. -/
def selections (s : KernelState) : KernelLabel → List Sched
  | .select =>
    if s.sched.needResched = true ∨ ¬ schedIdxRunnable s.sched s.sched.currentIdx = true then
      [s.sched]
    else []
  | _ => []

/-- The slot that is current when all callbacks on the stack have returned. -/
def unwound (stack : List Activation) (current : TaskIdx) : TaskIdx :=
  stack.foldl (fun current a => a.prev.getD current) current

theorem callRel_true : CallRel fun _ _ _ => True where
  refl _ _ := trivial
  trans _ _ := trivial
  detach _ _ := trivial
  wake _ _ := trivial
  yield _ _ _ := trivial
  sleep _ _ _ := trivial
  block _ _ _ _ := trivial
  exit _ _ _ := trivial
  spawn _ _ _ _ _ _ := trivial
  clear _ _ _ := trivial
  enter _ _ _ := trivial
  leave _ _ := trivial

theorem call_currentIdx (c : SchedCall) (s : Sched) : (c.run s).currentIdx = s.currentIdx :=
  (Slotwise.call callRel_true c s).current

theorem handle_currentIdx (d : Device) (bytes : ℕ) (s : Sched) :
    (d.handle bytes s).currentIdx = s.currentIdx :=
  (Slotwise.handle callRel_true.toWakeRel (fun _ _ _ => trivial) d bytes s).current

theorem leaveTask_currentIdx (i : TaskIdx) (s : Sched) :
    (leaveTask i s).currentIdx = s.currentIdx :=
  (Slotwise.leaveTask callRel_true i s).current

section Steps

variable {M : ℕ} {smpCores : ℤ} {s t : KernelState} {l : KernelLabel}

theorem unwound_pumped (b : Activation) (rest : List Activation) (current : TaskIdx) :
    unwound (b.pumped :: rest) current = unwound (b :: rest) current := by
  have hprev : b.pumped.prev = b.prev := by
    unfold Activation.pumped
    split <;> rfl
  rw [unwound, unwound, List.foldl_cons, List.foldl_cons, hprev]

/-- `sched_run` goes on with the slot it has selected. -/
theorem unwound_select (hstack : s.stack = []) : unwound s.select.stack s.select.sched.currentIdx =
    (runSelect s.sched).currentIdx := by
  unfold KernelState.select
  dsimp only
  split_ifs
  · rfl
  · rw [hstack]
    rfl

/-- Between selections the slot that is left in the end stays the same. -/
theorem unwound_step (hstep : KernelStep s l t) :
    (selections s l = [] → unwound t.stack t.sched.currentIdx =
        unwound s.stack s.sched.currentIdx) ∧
      ∀ x ∈ selections s l, selections s l = [x] ∧
        x.currentIdx = unwound s.stack s.sched.currentIdx ∧
        unwound t.stack t.sched.currentIdx = schedPickNextIdx x := by
  have hnone {u : KernelState} (hsel : selections s l = [])
      (h : unwound u.stack u.sched.currentIdx = unwound s.stack s.sched.currentIdx) :
      (selections s l = [] → unwound u.stack u.sched.currentIdx =
          unwound s.stack s.sched.currentIdx) ∧
        ∀ x ∈ selections s l, selections s l = [x] ∧
          x.currentIdx = unwound s.stack s.sched.currentIdx ∧
          unwound u.stack u.sched.currentIdx = schedPickNextIdx x :=
    ⟨fun _ => h, by simp [hsel]⟩
  cases hstep with
  | select hirq hstack =>
    rw [unwound_select hstack, selections, runSelect, hstack]
    by_cases hpicks : s.sched.needResched = true ∨
        ¬ schedIdxRunnable s.sched s.sched.currentIdx = true
    · rw [if_pos hpicks, if_pos hpicks]
      refine ⟨fun h => absurd h (List.cons_ne_nil _ _), fun x hx => ?_⟩
      obtain rfl := List.mem_singleton.mp hx
      exact ⟨rfl, rfl, rfl⟩
    · rw [if_neg hpicks, if_neg hpicks]
      exact ⟨fun _ => rfl, fun x hx => absurd hx List.not_mem_nil⟩
  | call c hirq hstack hplace hidle =>
    exact hnone rfl (congrArg (unwound s.stack) (call_currentIdx c s.sched))
  | @block a rest hirq hstack hplace hidle =>
    refine hnone rfl ?_
    unfold KernelState.block
    split
    · rfl
    · split_ifs
      · rfl
      · rw [hstack]
        rfl
  | @test a rest self hirq hstack hplace =>
    refine hnone rfl ?_
    rw [hstack]
    rfl
  | @pump a rest self hirq hstack hplace =>
    refine hnone rfl ?_
    unfold KernelState.pump
    dsimp only
    split_ifs
    · rw [hstack]
      rfl
    · rw [hstack]
      rfl
  | @ret a rest hirq hstack hplace htrap =>
    refine hnone rfl ?_
    rw [hstack]
    cases rest with
    | nil =>
      change a.prev.getD (leaveTask a.idx s.sched).currentIdx = a.prev.getD s.sched.currentIdx
      rw [leaveTask_currentIdx]
    | cons b rest =>
      change unwound (b.pumped :: rest) (a.prev.getD (leaveTask a.idx s.sched).currentIdx) = _
      rw [unwound_pumped, leaveTask_currentIdx]
      rfl
  | @int a rest vm hirq hstack hplace hidle htrap hrun =>
    refine hnone rfl ?_
    rw [hstack]
    rfl
  | @iretTrap a rest vm hirq hstack hplace htrap hrun =>
    refine hnone rfl ?_
    rw [hstack]
    rfl
  | deliver hirq hclear hmask hrun henter => exact hnone rfl rfl
  | @handle d bytes hirq =>
    exact hnone rfl (congrArg (unwound s.stack) (handle_currentIdx d bytes s.sched))
  | iret hirq hrun => exact hnone rfl rfl
  | other hflag => exact hnone rfl rfl

/-- Only `sched_run` invokes a callback on an empty stack. -/
theorem select_of_enter (hstep : KernelStep s l t) (hempty : s.stack = [])
    (hentered : t.stack ≠ []) : l = .select := by
  have hstop {a : Activation} {rest : List Activation} (hstack : s.stack = a :: rest) : False :=
    List.cons_ne_nil a rest (hstack.symm.trans hempty)
  cases hstep with
  | select => rfl
  | call c hirq hstack => exact (hstop hstack).elim
  | block hirq hstack => exact (hstop hstack).elim
  | test hirq hstack => exact (hstop hstack).elim
  | pump hirq hstack => exact (hstop hstack).elim
  | ret hirq hstack => exact (hstop hstack).elim
  | int hirq hstack => exact (hstop hstack).elim
  | iretTrap hirq hstack => exact (hstop hstack).elim
  | deliver => exact absurd hempty hentered
  | handle => exact absurd hempty hentered
  | iret => exact absurd hempty hentered
  | other => exact absurd hempty hentered

/-- A callback is invoked only if its task is runnable. -/
theorem invoked_runnable (hstep : KernelStep s l t) {a : Activation}
    (hinvoked : t.stack = a :: s.stack) :
    (s.sched.tasks a.idx).used = true ∧ (s.sched.tasks a.idx).state = .runnable := by
  have hruns {x : Sched} (h : invocable x a.idx = true) :
      (x.tasks a.idx).used = true ∧ (x.tasks a.idx).state = .runnable := by
    simp only [invocable, Bool.and_eq_true, decide_eq_true_eq] at h
    exact ⟨h.1.1, h.2⟩
  have hlength := congrArg List.length hinvoked
  rw [List.length_cons] at hlength
  cases hstep.stackStep with
  | same hsame => exact absurd (hsame ▸ hlength) (by omega)
  | enter i hempty hnew =>
    obtain rfl := select_of_enter hstep hempty (hnew ▸ List.cons_ne_nil _ _)
    cases hstep with
    | select hirq hstack =>
      have htasks : (runSelect s.sched).tasks = s.sched.tasks := by
        unfold runSelect
        split_ifs <;> rfl
      rw [← htasks]
      unfold KernelState.select at hinvoked
      dsimp only at hinvoked
      split_ifs at hinvoked with hinvoke
      · have hidx := congrArg Activation.idx (List.cons.inj hinvoked).1
        dsimp only at hidx
        rw [hidx] at hinvoke
        exact hruns hinvoke
      · change s.stack = a :: s.stack at hinvoked
        exact absurd (congrArg List.length hinvoked) (by simp)
  | move hstack hnew hidx hactive =>
    rw [hstack, hnew] at hlength
    exact absurd hlength (by simp)
  | nest hpump hstack hplace hinvoke hnew =>
    have hidx := congrArg Activation.idx (List.cons.inj (hnew.symm.trans hinvoked)).1
    dsimp only at hidx
    rw [hidx] at hinvoke
    exact hruns hinvoke
  | leave hstack hnew =>
    rw [hnew] at hlength
    cases hlength
  | resume hstack hnew =>
    rw [hstack, hnew] at hlength
    exact absurd hlength (by simp)

/-- The selections so far form a row, and the last of them is the slot that is current in the
end. -/
structure SelectionInv (p : KernelState × List Sched) : Prop where
  row : p.2.IsChain fun s t => t.currentIdx = schedPickNextIdx s
  last : ∀ s ∈ p.2.getLast?, unwound p.1.stack p.1.sched.currentIdx = schedPickNextIdx s

theorem selectionInv_step {p q : KernelState × List Sched} (h : SelectionInv p)
    (hstep : ((kernel M smpCores).logged selections).step p l q) : SelectionInv q := by
  obtain ⟨hkernel, hlog⟩ := hstep
  obtain ⟨hkeep, hselect⟩ := unwound_step hkernel
  cases hsel : selections p.1 l with
  | nil =>
    rw [hsel, List.append_nil] at hlog
    refine ⟨hlog ▸ h.row, fun s hs => ?_⟩
    rw [hlog] at hs
    exact (hkeep hsel).trans (h.last s hs)
  | cons x rest =>
    obtain ⟨hone, hcurrent, hnext⟩ := hselect x (hsel ▸ List.mem_cons_self)
    rw [hone] at hlog
    constructor
    · rw [hlog, List.isChain_append]
      refine ⟨h.row, List.isChain_singleton x, fun s hs y hy => ?_⟩
      obtain rfl := Option.some.inj hy
      exact hcurrent.trans (h.last s hs)
    · rw [hlog, List.getLast?_append, List.getLast?_singleton]
      intro s hs
      obtain rfl := Option.some.inj hs
      exact hnext

theorem reachable_selectionInv {p : KernelState × List Sched}
    (h : Reachable ((kernel M smpCores).logged selections) p) : SelectionInv p := by
  refine h.invariant (P := SelectionInv) ?_ fun p l q => selectionInv_step
  rintro p ⟨-, hlog⟩
  constructor
  · rw [hlog]
    exact List.isChain_nil
  · rw [hlog]
    exact fun s hs => absurd hs (Option.not_mem_none s)

end Steps

/-! ## Round robin -/

/-- Among any `schedMaxTasks - 1` selections in a row there is one of each task that is
runnable at all of them; the idle slot is selected only when nothing else is runnable; and
only runnable tasks are invoked. -/
theorem round_robin {M : ℕ} {smpCores : ℤ} {p : KernelState × List Sched}
    (h : Reachable ((kernel M smpCores).logged selections) p) :
    (∀ i earlier row later, p.2 = earlier ++ row ++ later → row.length = schedMaxTasks - 1 →
        (∀ s ∈ row, schedIdxRunnable s i = true) → ∃ s ∈ row, schedPickNextIdx s = i) ∧
      (∀ s ∈ p.2, schedPickNextIdx s = 0 → ∀ i, schedIdxRunnable s i = false) ∧
      ∀ l t a, KernelStep p.1 l t → t.stack = a :: p.1.stack →
        (p.1.sched.tasks a.idx).used = true ∧ (p.1.sched.tasks a.idx).state = .runnable := by
  refine ⟨fun i earlier row later hlog hlen hrun => ?_,
    fun s _ hidle i => schedPickNextIdx_idle hidle i,
    fun l t a hstep hinvoked => invoked_runnable hstep hinvoked⟩
  have hrow := (reachable_selectionInv h).row
  rw [hlog] at hrow
  have hchain := (List.isChain_append.mp (List.isChain_append.mp hrow).1).2.1
  cases row with
  | nil => cases hlen
  | cons s rest =>
    have hi := schedIdxRunnable_ne_zero (hrun s List.mem_cons_self)
    have hrest : rest.length = schedMaxTasks - 2 := Nat.succ.inj hlen
    exact exists_picked hchain hrun ((slotsBefore_card hi).trans hrest.ge)

/-! ## Two tasks that yield -/

/-- Both tasks can be selected, and a selection is asked for. -/
structure BothReady (s : Sched) : Prop where
  resched : s.needResched = true
  used : ∀ j, (s.tasks j).used = (twoTasks.tasks j).used
  entry : ∀ j, (s.tasks j).entry = (twoTasks.tasks j).entry
  state : ∀ j, (s.tasks j).state = (twoTasks.tasks j).state

/-- The task that is selected, just invoked. -/
def turnTaken (s : Sched) : Sched :=
  enterTask (schedPickNextIdx s) { s with needResched := false, currentIdx := schedPickNextIdx s }

section Yielding

variable {s : Sched}

theorem BothReady.runnable (h : BothReady s) (j : TaskIdx) :
    schedIdxRunnable s j = schedIdxRunnable twoTasks j := by
  rw [schedIdxRunnable, schedIdxRunnable, h.used, h.state]

theorem BothReady.picked (h : BothReady s) : (s.tasks (schedPickNextIdx s)).used = true ∧
    (s.tasks (schedPickNextIdx s)).state = .runnable ∧ schedPickNextIdx s ≠ 0 ∧
      invocable s (schedPickNextIdx s) = true := by
  have hsecond : schedIdxRunnable s 2 = true := (h.runnable 2).trans (by decide)
  have hpick := (schedPickNextIdx_nearest hsecond).1
  have hne := schedIdxRunnable_ne_zero hpick
  have hentry : ∀ j, schedIdxRunnable twoTasks j = true → invocable twoTasks j = true := by decide
  have hinvoke : invocable s (schedPickNextIdx s) = true := by
    rw [invocable, h.used, h.entry, h.state]
    exact hentry _ ((h.runnable _).symm.trans hpick)
  simp only [schedIdxRunnable, Bool.and_eq_true, decide_eq_true_eq] at hpick
  exact ⟨hpick.1.2, hpick.2, hne, hinvoke⟩

theorem turnTaken_slot (s : Sched) : (turnTaken s).tasks (schedPickNextIdx s) =
    { s.tasks (schedPickNextIdx s) with
      state := .running, runTicks := (s.tasks (schedPickNextIdx s)).runTicks + 1 } :=
  Function.update_self _ _ _

theorem schedYield_turnTaken (h : BothReady s) : schedYield (turnTaken s) =
    ((turnTaken s).setTask (schedPickNextIdx s)
      { (turnTaken s).tasks (schedPickNextIdx s) with
        state := .runnable, quantumUsed := 0 }).resched := by
  have hcurrent : schedCurrentSlot (turnTaken s) = some (schedPickNextIdx s) := by
    refine if_pos ?_
    change ((turnTaken s).tasks (schedPickNextIdx s)).used = true
    rw [turnTaken_slot]
    exact h.picked.1
  rw [schedYield, hcurrent]
  dsimp only
  rw [if_pos (by rw [turnTaken_slot])]

/-- After a turn that ends with a yield both tasks are ready again. -/
theorem BothReady.yielded (h : BothReady s) : BothReady (schedYield (turnTaken s)) := by
  obtain ⟨hused, hstate, -, -⟩ := h.picked
  have htasks (j : TaskIdx) : ((schedYield (turnTaken s)).tasks j).used = (s.tasks j).used ∧
      ((schedYield (turnTaken s)).tasks j).entry = (s.tasks j).entry ∧
      ((schedYield (turnTaken s)).tasks j).state = (s.tasks j).state := by
    rw [schedYield_turnTaken h]
    change (Function.update (turnTaken s).tasks _ _ j).used = _ ∧
      (Function.update (turnTaken s).tasks _ _ j).entry = _ ∧
      (Function.update (turnTaken s).tasks _ _ j).state = _
    by_cases hj : j = schedPickNextIdx s
    · rw [hj, Function.update_self, turnTaken_slot]
      exact ⟨rfl, rfl, hstate.symm⟩
    · have hsame : (turnTaken s).tasks j = s.tasks j := Function.update_of_ne hj _ _
      rw [Function.update_of_ne hj, hsame]
      exact ⟨rfl, rfl, rfl⟩
  refine ⟨?_, fun j => (htasks j).1.trans (h.used j), fun j => (htasks j).2.1.trans (h.entry j),
    fun j => (htasks j).2.2.trans (h.state j)⟩
  rw [schedYield_turnTaken h]
  rfl

/-- A turn as steps of the kernel: the selection, the yield and the return of the callback. -/
theorem BothReady.turn (h : BothReady s) {vm : Vm} {log : List Sched}
    (hreach : Reachable ((kernel memSize 1).logged selections) (⟨vm, s, [], none⟩, log)) :
    Reachable ((kernel memSize 1).logged selections)
      (⟨vm, schedYield (turnTaken s), [], none⟩, log ++ [s]) := by
  obtain ⟨-, -, hne, hinvoke⟩ := h.picked
  have hselected : Reachable ((kernel memSize 1).logged selections)
      (⟨vm, turnTaken s, [⟨schedPickNextIdx s, none, false, .running⟩], none⟩, log ++ [s]) := by
    refine hreach.step (l := .select) ⟨kernelStep_select vm h.resched rfl hinvoke, ?_⟩
    rw [selections, if_pos (.inl h.resched)]
  have hyielded : Reachable ((kernel memSize 1).logged selections)
      (⟨vm, schedYield (turnTaken s), [⟨schedPickNextIdx s, none, false, .running⟩], none⟩,
        log ++ [s]) :=
    hselected.step (l := .call .yield)
      ⟨KernelStep.call .yield rfl rfl rfl hne, (List.append_nil _).symm⟩
  have hleave : leaveTask (schedPickNextIdx s) (schedYield (turnTaken s)) =
      schedYield (turnTaken s) := by
    refine if_neg ?_
    rw [h.yielded.state, ← h.state, h.picked.2.1]
    decide
  have hret := kernelStep_ret vm (schedYield (turnTaken s)) (schedPickNextIdx s)
  rw [hleave] at hret
  exact hyielded.step (l := .ret) ⟨hret, (List.append_nil _).symm⟩

/-- Any number of turns. -/
theorem exists_turns {vm : Vm} (hvm : Reachable (machine memSize 1) vm)
    (hflag : vm.interrupted = false) (n : ℕ) : ∃ s log,
    Reachable ((kernel memSize 1).logged selections) (⟨vm, s, [], none⟩, log) ∧ BothReady s ∧
      log.length = n ∧ ∀ x ∈ log, BothReady x := by
  induction n with
  | zero =>
    exact ⟨twoTasks, [], .of_init ⟨⟨hvm, hflag, twoTasks_boot, rfl, rfl⟩, rfl⟩,
      ⟨rfl, fun _ => rfl, fun _ => rfl, fun _ => rfl⟩, rfl, by simp⟩
  | succ n ih =>
    obtain ⟨s, log, hreach, hready, hlen, hall⟩ := ih
    refine ⟨_, _, hready.turn hreach, hready.yielded, by simp [hlen], fun x hx => ?_⟩
    rcases List.mem_append.mp hx with hx | hx
    · exact hall x hx
    · exact List.mem_singleton.mp hx ▸ hready

end Yielding

theorem round_robin_two_tasks : ∃ p, Reachable ((kernel memSize 1).logged selections) p ∧
    p.2.length = schedMaxTasks - 1 ∧ (∀ s ∈ p.2, schedIdxRunnable s 2 = true) ∧
      ∃ s ∈ p.2, schedPickNextIdx s = 2 := by
  obtain ⟨vm, v, w, hvm, hflag, -⟩ := exists_handled_vector (n := intTimer) (by decide)
  obtain ⟨s, log, hreach, -, hlen, hall⟩ := exists_turns hvm hflag (schedMaxTasks - 1)
  have hrun : ∀ x ∈ log, schedIdxRunnable x 2 = true := fun x hx =>
    ((hall x hx).runnable 2).trans (by decide)
  exact ⟨_, hreach, hlen, hrun, (round_robin hreach).1 2 [] log [] (by simp) hlen hrun⟩

end LampVm
