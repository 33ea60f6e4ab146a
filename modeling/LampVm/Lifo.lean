import LampVm.Transition

/-!
# Families of bounded stacks

A family has one stack for each index. A history records the values that are pushed and
popped; it is legal when no push exceeds the bound and every pop yields the top of its
stack. Between a push and the pop that matches it, the history of their stack is balanced.
-/
namespace LampVm.Lifo

open Transition

inductive StackNote (κ α : Type)
  | push (k : κ) (v : α)
  | pop (k : κ) (v : α)
  deriving DecidableEq, Repr

variable {κ α : Type}

def StackNote.stack : StackNote κ α → κ
  | .push k _ | .pop k _ => k

def Allowed (n : ℕ) (st : κ → List α) : StackNote κ α → Prop
  | .push k _ => (st k).length < n
  | .pop k v => (st k).head? = some v

/-- Everything pushed on stack `k` is popped again, and nothing else. -/
inductive Balanced (k : κ) : List (StackNote κ α) → Prop
  | nil : Balanced k []
  | other {x : StackNote κ α} {xs : List (StackNote κ α)} :
      x.stack ≠ k → Balanced k xs → Balanced k (x :: xs)
  | nested {v w : α} {xs ys : List (StackNote κ α)} :
      Balanced k xs → Balanced k ys → Balanced k (.push k v :: xs ++ .pop k w :: ys)

variable [DecidableEq κ]

def apply (st : κ → List α) : StackNote κ α → κ → List α
  | .push k v => Function.update st k (v :: st k)
  | .pop k _ => Function.update st k (st k).tail

@[simp] theorem apply_push_self (st : κ → List α) (k : κ) (v : α) :
    apply st (.push k v) k = v :: st k := Function.update_self ..

@[simp] theorem apply_pop_self (st : κ → List α) (k : κ) (v : α) :
    apply st (.pop k v) k = (st k).tail := Function.update_self ..

theorem apply_of_ne {st : κ → List α} {x : StackNote κ α} {k : κ} (h : x.stack ≠ k) :
    apply st x k = st k := by
  cases x with
  | push j v => exact Function.update_of_ne (Ne.symm h) _ _
  | pop j v => exact Function.update_of_ne (Ne.symm h) _ _

theorem foldl_apply_of_ne {k : κ} {xs : List (StackNote κ α)} (h : ∀ x ∈ xs, x.stack ≠ k)
    (st : κ → List α) : xs.foldl apply st k = st k := by
  induction xs generalizing st with
  | nil => rfl
  | cons x xs ih =>
    rw [List.foldl_cons, ih fun y hy => h y (List.mem_cons_of_mem _ hy),
      apply_of_ne (h x List.mem_cons_self)]

/-- A balanced history leaves its stack as it was. -/
theorem Balanced.foldl_apply {k : κ} {xs : List (StackNote κ α)} (h : Balanced k xs)
    (st : κ → List α) : xs.foldl apply st k = st k := by
  induction h generalizing st with
  | nil => rfl
  | other hx _ ih => rw [List.foldl_cons, ih, apply_of_ne hx]
  | @nested v w xs ys _ _ ihx ihy =>
    rw [List.cons_append, List.foldl_cons, List.foldl_append, List.foldl_cons, ihy,
      apply_pop_self, ihx, apply_push_self, List.tail_cons]

/-- A pop yields what the matching push left. -/
theorem pop_eq_push {n : ℕ} {k : κ} {st : κ → List α} {v w : α}
    {before between after : List (StackNote κ α)}
    (h : Legal (Allowed n) apply st (before ++ .push k v :: between ++ .pop k w :: after))
    (hb : Balanced k between) : w = v := by
  rw [legal_append, legal_append] at h
  have hpop : ((before ++ .push k v :: between).foldl apply st k).head? = some w := h.2.1
  rw [List.foldl_append, List.foldl_cons, hb.foldl_apply, apply_push_self, List.head?_cons] at hpop
  exact (Option.some.inj hpop).symm

end LampVm.Lifo
