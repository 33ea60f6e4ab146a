import Mathlib.Data.List.Basic
import Mathlib.Tactic

/-!
# Contracts for state programs that may stop with an error

A program is a `StateT σ (Except ε)` computation. `Meets` states what holds of
its result and final state when it returns, and what holds of its error when it
stops. `Safe` is the special case in which one assertion is kept: with the
assertion instantiated by an invariant it is an invariant rule, and with
`fun t => Frame s t` for a fixed start state `s` it is a frame rule. Every rule
follows one way of building programs, so a proof about a program follows its
text.
-/
namespace LampVm.Contract

variable {σ ε α β : Type}

/-- Total contract of one run: the value and state it returns, or its error. -/
def Result (post : α → σ → Prop) (err : ε → Prop) : Except ε (α × σ) → Prop
  | .ok r => post r.1 r.2
  | .error e => err e

/-- From every state in `pre` the program returns in `post` or stops in `err`. -/
def Meets (pre : σ → Prop) (m : StateT σ (Except ε) α) (post : α → σ → Prop)
    (err : ε → Prop) : Prop :=
  ∀ s, pre s → Result post err (m s)

/-- The program keeps `I`, and from a state in `I` it stops only with an error in `E`. -/
def Safe (I : σ → Prop) (E : ε → Prop) (m : StateT σ (Except ε) α) : Prop :=
  Meets I m (fun _ => I) E

@[simp] theorem result_ok (post : α → σ → Prop) (err : ε → Prop) (a : α) (s : σ) :
    Result post err (.ok (a, s)) ↔ post a s := Iff.rfl

theorem result_mono {post post' : α → σ → Prop} {err err' : ε → Prop}
    {r : Except ε (α × σ)} (h : Result post err r)
    (hp : ∀ a s, post a s → post' a s) (he : ∀ e, err e → err' e) :
    Result post' err' r := by
  cases r with
  | ok r => exact hp _ _ h
  | error e => exact he _ h

/-! ## How the program constructors run -/

theorem bind_apply (m : StateT σ (Except ε) α) (f : α → StateT σ (Except ε) β) (s : σ) :
    (m >>= f) s = match m s with
      | .ok r => f r.1 r.2
      | .error e => .error e := by
  change (do let r ← m s; f r.1 r.2) = _
  cases m s <;> rfl

theorem bind_ok {m : StateT σ (Except ε) α} {f : α → StateT σ (Except ε) β} {s t : σ} {a : α}
    (h : m s = .ok (a, t)) : (m >>= f) s = f a t := by
  rw [bind_apply, h]

theorem bind_error {m : StateT σ (Except ε) α} {f : α → StateT σ (Except ε) β} {s : σ} {e : ε}
    (h : m s = .error e) : (m >>= f) s = .error e := by
  rw [bind_apply, h]

/-- A sequence that returns has an intermediate value and state. -/
theorem bind_eq_ok {m : StateT σ (Except ε) α} {f : α → StateT σ (Except ε) β} {s t : σ} {b : β}
    (h : (m >>= f) s = .ok (b, t)) : ∃ a u, m s = .ok (a, u) ∧ f a u = .ok (b, t) := by
  rw [bind_apply] at h
  cases hm : m s with
  | ok r => rw [hm] at h; exact ⟨r.1, r.2, rfl, h⟩
  | error e => rw [hm] at h; cases h

@[simp] theorem pure_apply (a : α) (s : σ) :
    (pure a : StateT σ (Except ε) α) s = .ok (a, s) := rfl

@[simp] theorem get_apply (s : σ) : (get : StateT σ (Except ε) σ) s = .ok (s, s) := rfl

@[simp] theorem set_apply (t s : σ) : (set t : StateT σ (Except ε) PUnit) s = .ok (⟨⟩, t) := rfl

@[simp] theorem modify_apply (f : σ → σ) (s : σ) :
    (modify f : StateT σ (Except ε) PUnit) s = .ok (⟨⟩, f s) := rfl

@[simp] theorem throw_apply (e : ε) (s : σ) :
    (throw e : StateT σ (Except ε) α) s = .error e := rfl

/-! ## Rules -/

theorem Meets.weaken {pre pre' : σ → Prop} {m : StateT σ (Except ε) α}
    {post post' : α → σ → Prop} {err err' : ε → Prop} (h : Meets pre m post err)
    (hpre : ∀ s, pre' s → pre s) (hpost : ∀ a s, post a s → post' a s)
    (herr : ∀ e, err e → err' e) : Meets pre' m post' err' :=
  fun s hs => result_mono (h s (hpre s hs)) hpost herr

/-- A contract without admissible errors is a total one. -/
theorem Meets.returns {pre : σ → Prop} {m : StateT σ (Except ε) α} {post : α → σ → Prop}
    (h : Meets pre m post fun _ => False) {s : σ} (hs : pre s) :
    ∃ a t, m s = .ok (a, t) ∧ post a t := by
  have hres := h s hs
  cases hr : m s with
  | ok r => exact ⟨r.1, r.2, rfl, by rwa [hr] at hres⟩
  | error e =>
    rw [hr] at hres
    exact hres.elim

theorem Meets.bind {pre : σ → Prop} {m : StateT σ (Except ε) α}
    {f : α → StateT σ (Except ε) β} {mid : α → σ → Prop} {post : β → σ → Prop}
    {err : ε → Prop} (hm : Meets pre m mid err) (hf : ∀ a, Meets (mid a) (f a) post err) :
    Meets pre (m >>= f) post err := by
  intro s hs
  have h := hm s hs
  rw [bind_apply]
  cases hr : m s with
  | ok r => rw [hr] at h; exact hf r.1 r.2 h
  | error e => rw [hr] at h; exact h

theorem Meets.pure {pre : σ → Prop} {a : α} {post : α → σ → Prop} {err : ε → Prop}
    (h : ∀ s, pre s → post a s) : Meets pre (pure a : StateT σ (Except ε) α) post err :=
  fun s hs => h s hs

theorem Meets.modify {pre : σ → Prop} {f : σ → σ} {post : PUnit → σ → Prop} {err : ε → Prop}
    (h : ∀ s, pre s → post ⟨⟩ (f s)) :
    Meets pre (modify f : StateT σ (Except ε) PUnit) post err :=
  fun s hs => h s hs

/-- A loop over a list: the assertion advances with the position. -/
theorem Meets.forM {l : List β} {f : β → StateT σ (Except ε) PUnit} {J : ℕ → σ → Prop}
    {E : ε → Prop} (h : ∀ i x, l[i]? = some x → Meets (J i) (f x) (fun _ => J (i + 1)) E) :
    Meets (J 0) (l.forM f) (fun _ => J l.length) E := by
  induction l generalizing J with
  | nil => exact Meets.pure fun _ hs => hs
  | cons x xs ih =>
    refine Meets.bind (h 0 x rfl) fun _ => ?_
    exact ih (J := fun i => J (i + 1)) fun i y hy => h (i + 1) y hy

section Safe

variable {I : σ → Prop} {E : ε → Prop}

theorem safe_pure (a : α) : Safe I E (pure a : StateT σ (Except ε) α) :=
  fun _ hs => hs

theorem safe_get : Safe I E (get : StateT σ (Except ε) σ) :=
  fun _ hs => hs

theorem safe_modify {f : σ → σ} (h : ∀ s, I s → I (f s)) :
    Safe I E (modify f : StateT σ (Except ε) PUnit) :=
  fun s hs => h s hs

theorem safe_throw {e : ε} (h : E e) : Safe I E (throw e : StateT σ (Except ε) α) :=
  fun _ _ => h

theorem safe_bind {m : StateT σ (Except ε) α} {f : α → StateT σ (Except ε) β}
    (hm : Safe I E m) (hf : ∀ a, Safe I E (f a)) : Safe I E (m >>= f) :=
  Meets.bind hm hf

/-- The state that `get` returns satisfies the assertion. -/
theorem safe_bind_get {f : σ → StateT σ (Except ε) β}
    (h : ∀ s, I s → Safe I E (f s)) : Safe I E (get >>= f) :=
  fun s hs => h s hs s hs

theorem safe_set {t : σ} (h : I t) : Safe I E (set t : StateT σ (Except ε) PUnit) :=
  fun _ _ => h

theorem safe_ite {p : Prop} [Decidable p] {m n : StateT σ (Except ε) α}
    (hm : p → Safe I E m) (hn : ¬ p → Safe I E n) : Safe I E (if p then m else n) := by
  split_ifs with h
  · exact hm h
  · exact hn h

theorem safe_forM {xs : List β} {f : β → StateT σ (Except ε) PUnit}
    (h : ∀ x ∈ xs, Safe I E (f x)) : Safe I E (xs.forM f) := by
  induction xs with
  | nil => exact safe_pure _
  | cons x xs ih =>
    have hx := h x (List.mem_cons_self ..)
    exact safe_bind hx fun _ => ih fun y hy => h y (List.mem_cons_of_mem _ hy)

/-- What a safe program does from one state that satisfies the assertion. -/
theorem Safe.ok {m : StateT σ (Except ε) α} (h : Safe I E m) {s t : σ} {a : α} (hs : I s)
    (hr : m s = .ok (a, t)) : I t := by
  have := h s hs
  rwa [hr] at this

theorem Safe.error {m : StateT σ (Except ε) α} (h : Safe I E m) {s : σ} {e : ε} (hs : I s)
    (hr : m s = .error e) : E e := by
  have := h s hs
  rwa [hr] at this

end Safe

end LampVm.Contract
