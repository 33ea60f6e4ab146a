import Mathlib.Data.List.Basic
import Mathlib.Tactic

/-!
# Labelled transition systems and their invariant rule

A system has initial states and labelled steps. A run is a finite list of labels
with the states it passes through. `restrict` keeps only the steps that meet a
condition on the state before the step and its label, so a statement about the
runs of a restricted system is a statement about the runs whose steps all meet
the condition. `logged` adds a history that no step can read; a history is legal for
an abstract object when the object allows each of its entries in turn.
-/
namespace LampVm.Transition

variable {σ ℓ τ α : Type}

structure System (σ ℓ : Type) where
  init : σ → Prop
  step : σ → ℓ → σ → Prop

/-- `Run M s ls t`: the labels `ls`, in order, take `s` to `t`. -/
inductive Run (M : System σ ℓ) (s : σ) : List ℓ → σ → Prop
  | nil : Run M s [] s
  | snoc {ls : List ℓ} {l : ℓ} {t u : σ} :
      Run M s ls t → M.step t l u → Run M s (ls ++ [l]) u

def Reachable (M : System σ ℓ) (t : σ) : Prop :=
  ∃ s ls, M.init s ∧ Run M s ls t

theorem Reachable.of_init {M : System σ ℓ} {s : σ} (h : M.init s) : Reachable M s :=
  ⟨s, [], h, .nil⟩

theorem Reachable.step {M : System σ ℓ} {s t : σ} {l : ℓ} (h : Reachable M s)
    (hs : M.step s l t) : Reachable M t := by
  obtain ⟨s₀, ls, h₀, hr⟩ := h
  exact ⟨s₀, ls ++ [l], h₀, hr.snoc hs⟩

theorem Reachable.run {M : System σ ℓ} {s t : σ} {ls : List ℓ} (h : Reachable M s)
    (hr : Run M s ls t) : Reachable M t := by
  induction hr with
  | nil => exact h
  | snoc _ hs ih => exact ih.step hs

/-- A step relation that keeps `P` keeps it along every run. -/
theorem Run.keeps {M : System σ ℓ} {P : σ → Prop}
    (hstep : ∀ s l t, P s → M.step s l t → P t) {s t : σ} {ls : List ℓ}
    (h : P s) (hr : Run M s ls t) : P t := by
  induction hr with
  | nil => exact h
  | snoc _ hs ih => exact hstep _ _ _ ih hs

/-- The invariant rule: true initially and kept by every step. -/
theorem Reachable.invariant {M : System σ ℓ} {P : σ → Prop}
    (hinit : ∀ s, M.init s → P s) (hstep : ∀ s l t, P s → M.step s l t → P t)
    {t : σ} (h : Reachable M t) : P t := by
  obtain ⟨s, ls, hs, hr⟩ := h
  exact hr.keeps hstep (hinit s hs)

/-- What has changed along a run has changed in one of its steps. -/
theorem Run.exists_change {M : System σ ℓ} {β : Type*} {f : σ → β} {s t : σ} {ls : List ℓ}
    (hr : Run M s ls t) (hne : f t ≠ f s) :
    ∃ ls₁ l ls₂ u v, ls = ls₁ ++ l :: ls₂ ∧ Run M s ls₁ u ∧ M.step u l v ∧ f v ≠ f u := by
  induction hr with
  | nil => exact absurd rfl hne
  | @snoc ls l t u hr hs ih =>
    by_cases hchanged : f u = f t
    · obtain ⟨ls₁, k, ls₂, v, w, rfl, hrun, hstep, hvw⟩ := ih (hchanged ▸ hne)
      exact ⟨ls₁, k, ls₂ ++ [l], v, w, by simp, hrun, hstep, hvw⟩
    · exact ⟨ls, l, [], t, u, rfl, hr, hs, hchanged⟩

theorem Run.cons {M : System σ ℓ} {s t u : σ} {l : ℓ} {ls : List ℓ}
    (h : M.step s l t) (hr : Run M t ls u) : Run M s (l :: ls) u := by
  induction hr with
  | nil => exact Run.snoc Run.nil h
  | snoc _ hs ih => exact ih.snoc hs

theorem Run.trans {M : System σ ℓ} {s t u : σ} {ls ls' : List ℓ} (h : Run M s ls t)
    (h' : Run M t ls' u) : Run M s (ls ++ ls') u := by
  induction h' with
  | nil => rwa [List.append_nil]
  | snoc _ hs ih =>
    rw [← List.append_assoc]
    exact ih.snoc hs

/-- A run whose steps another system takes between the states that stand for its own. -/
theorem Run.map {M : System σ ℓ} {N : System τ α} (g : σ → τ) (f : ℓ → α) {s t : σ}
    {ls : List ℓ} (h : Run M s ls t)
    (hstep : ∀ l ∈ ls, ∀ u v, M.step u l v → N.step (g u) (f l) (g v)) :
    Run N (g s) (ls.map f) (g t) := by
  induction h with
  | nil => exact .nil
  | snoc _ hs ih =>
    rw [List.map_append]
    refine (ih fun l hl => hstep l (List.mem_append_left _ hl)).snoc ?_
    exact hstep _ (List.mem_append_right _ (List.mem_singleton_self _)) _ _ hs

/-- A run whose steps are steps of another system is one of its runs. -/
theorem Run.mono {M N : System σ ℓ} {s t : σ} {ls : List ℓ} (h : Run M s ls t)
    (hstep : ∀ l ∈ ls, ∀ u v, M.step u l v → N.step u l v) : Run N s ls t := by
  rw [← ls.map_id]
  exact h.map id id hstep

/-- Only the steps whose start state and label meet `C`. -/
def System.restrict (M : System σ ℓ) (C : σ → ℓ → Prop) : System σ ℓ where
  init := M.init
  step s l t := C s l ∧ M.step s l t

theorem Run.of_restrict {M : System σ ℓ} {C : σ → ℓ → Prop} {s t : σ} {ls : List ℓ}
    (h : Run (M.restrict C) s ls t) : Run M s ls t := by
  induction h with
  | nil => exact .nil
  | snoc _ hs ih => exact ih.snoc hs.2

theorem Reachable.of_restrict {M : System σ ℓ} {C : σ → ℓ → Prop} {t : σ}
    (h : Reachable (M.restrict C) t) : Reachable M t := by
  obtain ⟨s, ls, hs, hr⟩ := h
  exact ⟨s, ls, hs, hr.of_restrict⟩

/-- The system with a history: each step appends what it emits. -/
def System.logged (M : System σ ℓ) (emit : σ → ℓ → List τ) : System (σ × List τ) ℓ where
  init p := M.init p.1 ∧ p.2 = []
  step p l q := M.step p.1 l q.1 ∧ q.2 = p.2 ++ emit p.1 l

/-- Histories only grow. -/
theorem Run.logged_append {M : System σ ℓ} {emit : σ → ℓ → List τ} {p q : σ × List τ}
    {ls : List ℓ} (h : Run (M.logged emit) p ls q) : ∃ later, q.2 = p.2 ++ later := by
  induction h with
  | nil => exact ⟨[], (List.append_nil _).symm⟩
  | snoc _ hs ih =>
    obtain ⟨later, hlater⟩ := ih
    exact ⟨later ++ emit _ _, by rw [hs.2, hlater, List.append_assoc]⟩

theorem Reachable.logged_step {M : System σ ℓ} {emit : σ → ℓ → List τ} {s t : σ} {l : ℓ}
    {log e : List τ} (h : Reachable (M.logged emit) (s, log)) (hs : M.step s l t)
    (he : emit s l = e) : Reachable (M.logged emit) (t, log ++ e) :=
  h.step (l := l) ⟨hs, congrArg (log ++ ·) he.symm⟩

/-- Without its history a run is a run. -/
theorem Run.of_logged {M : System σ ℓ} {emit : σ → ℓ → List τ} {p q : σ × List τ} {ls : List ℓ}
    (h : Run (M.logged emit) p ls q) : Run M p.1 ls q.1 := by
  induction h with
  | nil => exact .nil
  | snoc _ hs ih => exact ih.snoc hs.1

/-! ## Histories of an abstract object -/

/-- The object that starts as `a` allows each entry where it occurs. -/
def Legal (allowed : α → τ → Prop) (apply : α → τ → α) : α → List τ → Prop
  | _, [] => True
  | a, x :: xs => allowed a x ∧ Legal allowed apply (apply a x) xs

section Legal

variable {allowed : α → τ → Prop} {apply : α → τ → α}

theorem legal_append {a : α} {xs ys : List τ} :
    Legal allowed apply a (xs ++ ys) ↔
      Legal allowed apply a xs ∧ Legal allowed apply (xs.foldl apply a) ys := by
  induction xs generalizing a with
  | nil => simp [Legal]
  | cons x xs ih => simp [Legal, ih, and_assoc]

/-- The refinement rule: when every step emits entries that the object allows and
leads to a state related to the object behind them, every history is legal. -/
theorem Reachable.refines {M : System σ ℓ} {emit : σ → ℓ → List τ} {R : σ → α → Prop} {a : α}
    (hinit : ∀ s, M.init s → R s a)
    (hstep : ∀ s l t b, R s b → M.step s l t →
      Legal allowed apply b (emit s l) ∧ R t ((emit s l).foldl apply b))
    {p : σ × List τ} (h : Reachable (M.logged emit) p) :
    Legal allowed apply a p.2 ∧ R p.1 (p.2.foldl apply a) := by
  refine h.invariant (P := fun q => Legal allowed apply a q.2 ∧ R q.1 (q.2.foldl apply a)) ?_ ?_
  · rintro ⟨s, log⟩ ⟨hs, rfl⟩
    exact ⟨trivial, hinit s hs⟩
  · rintro ⟨s, log⟩ l ⟨t, log'⟩ ⟨hlegal, hR⟩ ⟨hs, rfl⟩
    obtain ⟨hlegal', hR'⟩ := hstep s l t _ hR hs
    refine ⟨legal_append.mpr ⟨hlegal, hlegal'⟩, ?_⟩
    rw [List.foldl_append]
    exact hR'

end Legal

end LampVm.Transition
