import LampVm.FdTable
import LampVm.Transition
import Mathlib.Data.Fintype.Card

/-!
# Reference counts of the descriptor table

Every call on a table changes at most one descriptor, and with it the count of at most
two open files. A table is therefore described by the open file each descriptor refers
to; the counts are the sizes of the fibres of this map.
-/
namespace LampVm

open Transition

/-! ## Fibres of an updated map -/

section Fibres

variable {α β : Type*} [Fintype α] [DecidableEq β]

/-- The number of points that a map sends to `c`. -/
def fibreCard (f : α → β) (c : β) : ℕ := (Finset.univ.filter fun x => f x = c).card

theorem fibreCard_pos_iff {f : α → β} {c : β} : 0 < fibreCard f c ↔ ∃ x, f x = c := by
  rw [fibreCard, Finset.card_pos]
  simp [Finset.Nonempty]

/-- Changing one value moves one point from its old fibre to its new one. -/
theorem fibreCard_update [DecidableEq α] (f : α → β) (a : α) (b c : β) :
    fibreCard (Function.update f a b) c + (if f a = c then 1 else 0) =
      fibreCard f c + (if b = c then 1 else 0) := by
  have hfibre : Finset.univ.filter (fun x => Function.update f a b x = c) =
      if b = c then insert a ((Finset.univ.filter fun x => f x = c).erase a)
      else (Finset.univ.filter fun x => f x = c).erase a := by
    ext x
    by_cases hx : x = a
    · split_ifs with hb <;> simp [hx, hb]
    · split_ifs <;> simp [hx]
  have herase : ((Finset.univ.filter fun x => f x = c).erase a).card +
      (if f a = c then 1 else 0) = fibreCard f c := by
    split_ifs with hfa
    · exact Finset.card_erase_add_one (by simpa using hfa)
    · rw [Finset.erase_eq_of_notMem (by simpa using hfa), fibreCard, add_zero]
  rw [fibreCard, hfibre, ← herase]
  by_cases hb : b = c
  · rw [if_pos hb, if_pos hb, Finset.card_insert_of_notMem (Finset.notMem_erase a _)]
    omega
  · rw [if_neg hb, if_neg hb, add_zero]

end Fibres

/-! ## The invariant -/

/-- The open file of a used descriptor. -/
def FdTable.target (t : FdTable) (d : Fin schedMaxFds) : Option (Fin schedMaxFds) :=
  if (t.fdtab d).used then (t.fdtab d).ofileIdx else none

/-- The used descriptors that refer to an open file. -/
def FdTable.referrers (t : FdTable) (i : Fin schedMaxFds) : Finset (Fin schedMaxFds) :=
  Finset.univ.filter fun d => (t.fdtab d).used = true ∧ (t.fdtab d).ofileIdx = some i

structure FdInv (t : FdTable) : Prop where
  referred : ∀ d, (t.fdtab d).used = true →
    ∃ i, (t.fdtab d).ofileIdx = some i ∧ (t.ofiles i).used = true
  refs : ∀ i, (t.ofiles i).refs.toNat = (t.referrers i).card
  used_iff : ∀ i, (t.ofiles i).used = true ↔ 0 < (t.ofiles i).refs.toNat

variable {t : FdTable} {d o i : Fin schedMaxFds} {fd : BitVec 32}

theorem target_eq_some_iff : t.target d = some i ↔
    (t.fdtab d).used = true ∧ (t.fdtab d).ofileIdx = some i := by
  unfold FdTable.target
  split_ifs with h <;> simp [h]

theorem card_referrers (t : FdTable) (i : Fin schedMaxFds) :
    (t.referrers i).card = fibreCard t.target (some i) := by
  simp only [FdTable.referrers, fibreCard, target_eq_some_iff]

/-- A table keeps the invariant when each used descriptor has an open file and the
counts are right. -/
theorem FdInv.of_counts (hidx : ∀ d, (t.fdtab d).used = true → (t.fdtab d).ofileIdx ≠ none)
    (hrefs : ∀ i, (t.ofiles i).refs.toNat = fibreCard t.target (some i))
    (hused : ∀ i, (t.ofiles i).used = true ↔ 0 < (t.ofiles i).refs.toNat) : FdInv t := by
  refine ⟨?_, fun i => (hrefs i).trans (card_referrers t i).symm, hused⟩
  intro d hd
  obtain ⟨i, hi⟩ := Option.ne_none_iff_exists'.mp (hidx d hd)
  refine ⟨i, hi, ?_⟩
  rw [hused, hrefs, fibreCard_pos_iff]
  exact ⟨d, target_eq_some_iff.mpr ⟨hd, hi⟩⟩

theorem FdInv.refs_eq (h : FdInv t) (i : Fin schedMaxFds) :
    (t.ofiles i).refs.toNat = fibreCard t.target (some i) :=
  (h.refs i).trans (card_referrers t i)

theorem FdInv.used_of_target (h : FdInv t) (hd : t.target d = some i) :
    (t.ofiles i).used = true := by
  rw [h.used_iff, h.refs_eq, fibreCard_pos_iff]
  exact ⟨d, hd⟩

theorem FdInv.target_eq_none_iff (h : FdInv t) : t.target d = none ↔ (t.fdtab d).used = false := by
  constructor
  · intro hnone
    cases hd : (t.fdtab d).used with
    | false => rfl
    | true =>
      obtain ⟨i, hi, -⟩ := h.referred d hd
      rw [target_eq_some_iff.mpr ⟨hd, hi⟩] at hnone
      cases hnone
  · intro hd
    simp [FdTable.target, hd]

theorem FdInv.idx_ne_none (h : FdInv t) (d : Fin schedMaxFds) (hd : (t.fdtab d).used = true) :
    (t.fdtab d).ofileIdx ≠ none := by
  obtain ⟨i, hi, -⟩ := h.referred d hd
  rw [hi]
  simp

/-! ## The lookup -/

theorem ofileByFd_eq_some (h : t.ofileByFd fd = some (d, i)) :
    0 ≤ fd.toInt ∧ d.val = fd.toNat ∧ t.target d = some i := by
  unfold FdTable.ofileByFd at h
  split at h
  next hfd =>
    simp only at h
    split at h
    · cases h
    · next hused =>
      split at h
      · cases h
      · next j hj =>
        split at h
        · cases h
        · cases h
          exact ⟨hfd.1, rfl, target_eq_some_iff.mpr ⟨by simpa using hused, hj⟩⟩
  next => cases h

theorem FdInv.ofileByFd_of_target (h : FdInv t) (hfd : 0 ≤ fd.toInt) (hd : d.val = fd.toNat)
    (hi : t.target d = some i) : t.ofileByFd fd = some (d, i) := by
  obtain ⟨hused, hidx⟩ := target_eq_some_iff.mp hi
  have hfile := h.used_of_target hi
  have hpos := (h.used_iff i).mp hfile
  have hne : (t.ofiles i).refs ≠ 0 := by
    intro hzero
    rw [hzero] at hpos
    exact absurd hpos (by decide)
  have hlt : 0 ≤ fd.toInt ∧ fd.toNat < schedMaxFds := ⟨hfd, hd ▸ d.isLt⟩
  have heq : (⟨fd.toNat, hlt.2⟩ : Fin schedMaxFds) = d := Fin.ext hd.symm
  rw [FdTable.ofileByFd, dif_pos hlt]
  simp only [heq, hused, not_true_eq_false, if_false, hidx, hfile, hne, or_self]

theorem isOpen_of_ofileByFd (h : t.ofileByFd fd = some (d, i)) : t.isOpen fd = true := by
  obtain ⟨hfd, hd, htarget⟩ := ofileByFd_eq_some h
  have hlt : 0 ≤ fd.toInt ∧ fd.toNat < schedMaxFds := ⟨hfd, hd ▸ d.isLt⟩
  have heq : (⟨fd.toNat, hlt.2⟩ : Fin schedMaxFds) = d := Fin.ext hd.symm
  rw [FdTable.isOpen, dif_pos hlt, heq]
  exact (target_eq_some_iff.mp htarget).1

/-- The lookup of reads and writes finds a file exactly for the open descriptors. -/
theorem FdInv.isOpen_iff (h : FdInv t) (fd : BitVec 32) :
    t.isOpen fd = true ↔ (t.ofileByFd fd).isSome = true := by
  constructor
  · intro hopen
    unfold FdTable.isOpen at hopen
    split at hopen
    next hfd =>
      obtain ⟨i, hi, -⟩ := h.referred _ hopen
      rw [h.ofileByFd_of_target hfd.1 rfl (target_eq_some_iff.mpr ⟨hopen, hi⟩)]
      rfl
    next => cases hopen
  · intro hsome
    obtain ⟨⟨d, i⟩, hdi⟩ := Option.isSome_iff_exists.mp hsome
    exact isOpen_of_ofileByFd hdi

/-! ## One descriptor changes -/

/-- A table whose entry for `d` now refers to `v` and whose open files are `files`. -/
theorem target_update (t : FdTable) (d : Fin schedMaxFds) (ent : Fdent)
    (files : Fin schedMaxFds → Ofile) :
    (⟨files, Function.update t.fdtab d ent⟩ : FdTable).target =
      Function.update t.target d (if ent.used then ent.ofileIdx else none) := by
  funext x
  by_cases hx : x = d
  · simp [FdTable.target, hx]
  · simp [FdTable.target, Function.update_of_ne hx]

theorem fibreCard_some_update_none {f : Fin schedMaxFds → Option (Fin schedMaxFds)}
    (hd : f d = some i) (j : Fin schedMaxFds) :
    fibreCard (Function.update f d none) (some j) + (if j = i then 1 else 0) =
      fibreCard f (some j) := by
  have h := fibreCard_update f d none (some j)
  simp only [hd, Option.some.injEq, reduceCtorEq, if_false, add_zero] at h
  rw [← h]
  by_cases hj : i = j <;> simp [hj, eq_comm]

theorem fibreCard_some_update_some {f : Fin schedMaxFds → Option (Fin schedMaxFds)}
    (hd : f d = none) (j : Fin schedMaxFds) :
    fibreCard (Function.update f d (some i)) (some j) =
      fibreCard f (some j) + (if j = i then 1 else 0) := by
  have h := fibreCard_update f d (some i) (some j)
  simp only [hd, Option.some.injEq, reduceCtorEq, if_false, add_zero] at h
  rw [h]
  by_cases hj : i = j <;> simp [hj, eq_comm]

theorem FdInv.refs_le (h : FdInv t) (i : Fin schedMaxFds) : (t.ofiles i).refs.toNat ≤ 32 := by
  rw [h.refs i]
  exact (Finset.card_le_univ _).trans (by simp)

/-- Making an unused descriptor refer to the open file of a used one. -/
theorem FdInv.share (h : FdInv t) (ho : t.target o = some i) (hd : (t.fdtab d).used = false) :
    FdInv (t.share o d i) := by
  have hidx := (target_eq_some_iff.mp ho).2
  have hle := h.refs_le i
  have hnone := h.target_eq_none_iff.mpr hd
  have htarget : (t.share o d i).target = Function.update t.target d (some i) := by
    rw [FdTable.share, target_update, hidx]
    rfl
  have hplus : ((t.ofiles i).refs + 1).toNat = (t.ofiles i).refs.toNat + 1 := by
    rw [BitVec.toNat_add]
    exact Nat.mod_eq_of_lt (by change _ + 1 < 2 ^ 32; omega)
  refine .of_counts (fun x hx => ?_) (fun j => ?_) (fun j => ?_)
  · by_cases hxd : x = d
    · simp [FdTable.share, hxd, hidx]
    · simp only [FdTable.share, Function.update_of_ne hxd] at hx ⊢
      exact h.idx_ne_none x hx
  · rw [htarget, fibreCard_some_update_some hnone, ← h.refs_eq j]
    by_cases hj : j = i
    · subst hj
      simp only [FdTable.share, Function.update_self, hplus, if_true]
    · simp [FdTable.share, hj]
  · by_cases hj : j = i
    · subst hj
      have hused := h.used_of_target ho
      simp only [FdTable.share, Function.update_self, hplus, hused, true_iff]
      omega
    · simp only [FdTable.share, Function.update_of_ne hj]
      exact h.used_iff j

/-- Opening a fresh file on an unused descriptor. -/
theorem FdInv.openFile (h : FdInv t) (hd : (t.fdtab d).used = false)
    (hi : (t.ofiles i).used = false) (type : OfileType) (flags : BitVec 32) :
    FdInv ⟨Function.update t.ofiles i ⟨true, 1, type, flags⟩,
      Function.update t.fdtab d ⟨true, some i, 0⟩⟩ := by
  have hnone := h.target_eq_none_iff.mpr hd
  have hzero : (t.ofiles i).refs.toNat = 0 := by
    have hnot := (h.used_iff i).not
    rw [hi] at hnot
    simpa using hnot
  refine .of_counts (fun x hx => ?_) (fun j => ?_) (fun j => ?_)
  · by_cases hxd : x = d
    · simp [hxd]
    · simp only [Function.update_of_ne hxd] at hx ⊢
      exact h.idx_ne_none x hx
  · rw [target_update, if_pos rfl, fibreCard_some_update_some hnone, ← h.refs_eq j]
    by_cases hj : j = i
    · subst hj
      simp [hzero]
    · simp [hj]
  · by_cases hj : j = i
    · simp [hj]
    · simp only [Function.update_of_ne hj]
      exact h.used_iff j

/-- What closing a descriptor does: the descriptor is freed and its open file loses a
reference, with the last of which it is freed too. -/
theorem closeFd_eq (hlookup : t.ofileByFd fd = some (d, i)) (hne : (t.ofiles i).refs ≠ 0) :
    ∃ file : Ofile, file.refs = (t.ofiles i).refs - 1 ∧
      (file.used = true ↔ (t.ofiles i).used = true ∧ (t.ofiles i).refs - 1 ≠ 0) ∧
      t.closeFd fd =
        (true, ⟨Function.update t.ofiles i file, Function.update t.fdtab d ⟨false, none, 0⟩⟩) := by
  simp only [FdTable.closeFd, hlookup, if_pos hne]
  by_cases hlast : (t.ofiles i).refs - 1 = 0
  · refine ⟨⟨false, (t.ofiles i).refs - 1, .none, 0⟩, rfl, ?_, by rw [if_pos hlast]⟩
    simp only [hlast]
    simp
  · exact ⟨{ t.ofiles i with refs := (t.ofiles i).refs - 1 }, rfl,
      ⟨fun hused => ⟨hused, hlast⟩, fun hused => hused.1⟩, by rw [if_neg hlast]⟩

/-- Closing a descriptor. -/
theorem FdInv.closeFd (h : FdInv t) (fd : BitVec 32) : FdInv (t.closeFd fd).2 := by
  cases hlookup : t.ofileByFd fd with
  | none =>
    simp only [FdTable.closeFd, hlookup]
    exact h
  | some r =>
    obtain ⟨d, i⟩ := r
    obtain ⟨-, -, htarget⟩ := ofileByFd_eq_some hlookup
    have hused := h.used_of_target htarget
    have hpos := (h.used_iff i).mp hused
    have hne : (t.ofiles i).refs ≠ 0 := by
      intro hzero
      rw [hzero] at hpos
      exact absurd hpos (by decide)
    have hminus : ((t.ofiles i).refs - 1).toNat = (t.ofiles i).refs.toNat - 1 := by
      have hlt := (t.ofiles i).refs.isLt
      rw [BitVec.toNat_sub]
      change (2 ^ 32 - 1 + (t.ofiles i).refs.toNat) % 2 ^ 32 = _
      omega
    have hzero : (t.ofiles i).refs - 1 ≠ 0 ↔ 0 < (t.ofiles i).refs.toNat - 1 := by
      rw [← hminus, Nat.pos_iff_ne_zero]
      exact BitVec.toNat_inj.symm.not
    obtain ⟨file, hrefs, hfile, heq⟩ := closeFd_eq hlookup hne
    rw [heq]
    refine .of_counts (fun x hx => ?_) (fun j => ?_) (fun j => ?_)
    · by_cases hxd : x = d
      · simp [hxd] at hx
      · simp only [Function.update_of_ne hxd] at hx ⊢
        exact h.idx_ne_none x hx
    · have hcount := fibreCard_some_update_none htarget j
      rw [← h.refs_eq j] at hcount
      rw [target_update]
      by_cases hji : j = i
      · subst hji
        simp only [if_true] at hcount
        simp only [Function.update_self, hrefs, hminus, Bool.false_eq_true, if_false]
        omega
      · simp only [if_neg hji, add_zero] at hcount
        simp only [Function.update_of_ne hji, Bool.false_eq_true, if_false]
        exact hcount.symm
    · by_cases hji : j = i
      · subst hji
        simp only [Function.update_self, hfile, hused, true_and, hrefs, hminus]
        exact hzero
      · simp only [Function.update_of_ne hji]
        exact h.used_iff j

theorem FdInv.closeAllFds (h : FdInv t) : FdInv t.closeAllFds := by
  unfold FdTable.closeAllFds
  generalize List.finRange schedMaxFds = ds
  induction ds generalizing t with
  | nil => exact h
  | cons d ds ih =>
    refine ih ?_
    dsimp only
    split_ifs
    · exact h.closeFd _
    · exact h

/-- Closing a descriptor frees it and leaves the others as they are. -/
theorem FdInv.closeFd_fdtab (h : FdInv t) (hlookup : t.ofileByFd fd = some (d, i)) :
    (t.closeFd fd).2.fdtab = Function.update t.fdtab d ⟨false, none, 0⟩ := by
  obtain ⟨-, -, htarget⟩ := ofileByFd_eq_some hlookup
  have hpos := (h.used_iff i).mp (h.used_of_target htarget)
  have hne : (t.ofiles i).refs ≠ 0 := by
    intro hzero
    rw [hzero] at hpos
    exact absurd hpos (by decide)
  obtain ⟨file, -, -, heq⟩ := closeFd_eq hlookup hne
  rw [heq]

theorem FdInv.dup2 (h : FdInv t) (oldfd newfd : BitVec 32) : FdInv (t.dup2 oldfd newfd).2 := by
  unfold FdTable.dup2
  split
  next hnew =>
    split
    next => exact h
    next o i hlookup =>
      obtain ⟨-, ho, htarget⟩ := ofileByFd_eq_some hlookup
      split_ifs with heq hused
      · exact h
      · -- the target is open: it is closed first, which frees it and keeps the source
        obtain ⟨j, hj, -⟩ := h.referred _ hused
        have hclose := h.closeFd_fdtab (h.ofileByFd_of_target hnew.1 rfl
          (target_eq_some_iff.mpr ⟨hused, hj⟩))
        have hne : o ≠ ⟨newfd.toNat, hnew.2⟩ := by
          intro ho'
          rw [ho'] at ho
          exact heq (BitVec.eq_of_toNat_eq ho.symm)
        refine (h.closeFd newfd).share ?_ ?_
        · rw [FdTable.target, hclose, Function.update_of_ne hne]
          exact htarget
        · rw [hclose, Function.update_self]
      · exact h.share htarget (by simpa using hused)
  next => exact h

/-! ## Free entries -/

theorem find?_finRange_eq_some {p : Fin schedMaxFds → Bool}
    (h : (List.finRange schedMaxFds).find? p = some d) :
    p d = true ∧ ∀ e, e < d → p e = false := by
  obtain ⟨hd, as, bs, hsplit, has⟩ := List.find?_eq_some_iff_append.mp h
  refine ⟨hd, fun e he => ?_⟩
  have hsorted := List.pairwise_lt_finRange schedMaxFds
  have hmem := List.mem_finRange e
  rw [hsplit] at hsorted hmem
  rcases List.mem_append.mp hmem with hea | heb
  · simpa using has e hea
  · rcases List.mem_cons.mp heb with rfl | hebs
    · exact absurd he (lt_irrefl _)
    · have hlt := (List.pairwise_append.mp hsorted).2.1
      exact absurd he (not_lt_of_gt ((List.pairwise_cons.mp hlt).1 e hebs))

theorem findFreeFd_eq_some (h : t.findFreeFd 0 = some d) :
    (t.fdtab d).used = false ∧ ∀ e, e < d → (t.fdtab e).used = true := by
  obtain ⟨hd, hbefore⟩ := find?_finRange_eq_some h
  refine ⟨by simpa using hd, fun e he => by simpa using hbefore e he⟩

theorem findFreeFd_eq_none : t.findFreeFd 0 = none ↔ ∀ d, (t.fdtab d).used = true := by
  simp [FdTable.findFreeFd, List.find?_eq_none]

/-- There are no more open files than used descriptors, so with a free descriptor
there is a free open file. -/
theorem FdInv.exists_free_ofile (h : FdInv t) (hd : (t.fdtab d).used = false) :
    ∃ i, t.findFreeOfile = some i ∧ (t.ofiles i).used = false := by
  have hexists : ∃ i, (t.ofiles i).used = false := by
    by_contra hall
    have hused (i : Fin schedMaxFds) : (t.ofiles i).used = true := by
      cases hi : (t.ofiles i).used with
      | false => exact absurd ⟨i, hi⟩ hall
      | true => rfl
    have hsurj : Function.Surjective t.target := by
      intro x
      cases x with
      | none => exact ⟨d, h.target_eq_none_iff.mpr hd⟩
      | some i =>
        have hpos := (h.used_iff i).mp (hused i)
        rw [h.refs_eq] at hpos
        exact fibreCard_pos_iff.mp hpos
    have hcard := Fintype.card_le_of_surjective _ hsurj
    simp only [Fintype.card_option, Fintype.card_fin] at hcard
    omega
  obtain ⟨i, hi⟩ := hexists
  cases hfind : t.findFreeOfile with
  | none =>
    have hnone := List.find?_eq_none.mp hfind i (List.mem_finRange i)
    simp [hi] at hnone
  | some j => exact ⟨j, rfl, by simpa using (find?_finRange_eq_some hfind).1⟩

/-! ## Runs of calls -/

inductive FdCall
  | openSpecial (specialType statusFlags : BitVec 32)
  | dup (oldfd : BitVec 32)
  | dup2 (oldfd newfd : BitVec 32)
  | close (fd : BitVec 32)
  | fcntlGetfl (fd : BitVec 32) (out : Bool)
  | fcntlGetfd (fd : BitVec 32) (out : Bool)
  | fcntlSetfd (fd flags : BitVec 32)
  | fcntlSetfl (fd flags : BitVec 32)
  | closeAllFds

/-- The return code of a call and the table after it. -/
def FdCall.run (t : FdTable) : FdCall → ℤ × FdTable
  | .openSpecial specialType statusFlags => t.openSpecial specialType statusFlags
  | .dup oldfd => t.dup oldfd
  | .dup2 oldfd newfd => t.dup2 oldfd newfd
  | .close fd => t.close fd
  | .fcntlGetfl fd out => ((t.fcntlGetfl fd out).1, t)
  | .fcntlGetfd fd out => ((t.fcntlGetfd fd out).1, t)
  | .fcntlSetfd fd flags => t.fcntlSetfd fd flags
  | .fcntlSetfl fd flags => t.fcntlSetfl fd flags
  | .closeAllFds => (schedFdOk, t.closeAllFds)

/-- A task's table from its creation on. -/
def fdCalls : System FdTable FdCall where
  init t := t = .initStdio
  step t c t' := (c.run t).2 = t'

theorem initStdio_inv : FdInv .initStdio :=
  ⟨by decide, by decide, by decide⟩

theorem close_snd (t : FdTable) (fd : BitVec 32) : (t.close fd).2 = (t.closeFd fd).2 := by
  unfold FdTable.close
  split <;> simp_all

theorem FdInv.openSpecial (h : FdInv t) (specialType statusFlags : BitVec 32) :
    FdInv (t.openSpecial specialType statusFlags).2 := by
  unfold FdTable.openSpecial
  split
  · exact h
  · split
    · exact h
    · next d hd =>
      split
      · exact h
      · next i hi =>
        exact h.openFile (findFreeFd_eq_some hd).1 (by simpa using (find?_finRange_eq_some hi).1) _ _

theorem FdInv.dup (h : FdInv t) (oldfd : BitVec 32) : FdInv (t.dup oldfd).2 := by
  unfold FdTable.dup
  split
  · exact h
  · next o i hlookup =>
    split
    · exact h
    · next d hd => exact h.share (ofileByFd_eq_some hlookup).2.2 (findFreeFd_eq_some hd).1

/-- Changing flags keeps what the invariant speaks of. -/
theorem FdInv.congr {t' : FdTable} (h : FdInv t)
    (hfd : ∀ d, (t'.fdtab d).used = (t.fdtab d).used ∧
      (t'.fdtab d).ofileIdx = (t.fdtab d).ofileIdx)
    (hfile : ∀ i, (t'.ofiles i).used = (t.ofiles i).used ∧
      (t'.ofiles i).refs = (t.ofiles i).refs) : FdInv t' := by
  have htarget : t'.target = t.target := by
    funext d
    simp only [FdTable.target, hfd d]
  refine .of_counts (fun d hd => ?_) (fun i => ?_) (fun i => ?_)
  · rw [(hfd d).1] at hd
    rw [(hfd d).2]
    exact h.idx_ne_none d hd
  · rw [(hfile i).2, htarget]
    exact h.refs_eq i
  · rw [(hfile i).1, (hfile i).2]
    exact h.used_iff i

theorem FdInv.fcntlSetfd (h : FdInv t) (fd flags : BitVec 32) :
    FdInv (t.fcntlSetfd fd flags).2 := by
  unfold FdTable.fcntlSetfd
  split
  · exact h
  · next d i hlookup =>
    refine h.congr (fun x => ?_) fun j => ⟨rfl, rfl⟩
    by_cases hx : x = d
    · subst hx
      simp
    · simp [Function.update_of_ne hx]

theorem FdInv.fcntlSetfl (h : FdInv t) (fd flags : BitVec 32) :
    FdInv (t.fcntlSetfl fd flags).2 := by
  unfold FdTable.fcntlSetfl
  split
  · exact h
  · next d i hlookup =>
    refine h.congr (fun x => ⟨rfl, rfl⟩) fun j => ?_
    by_cases hj : j = i
    · subst hj
      simp
    · simp [Function.update_of_ne hj]

theorem FdInv.run (h : FdInv t) (c : FdCall) : FdInv (c.run t).2 := by
  cases c with
  | openSpecial specialType statusFlags => exact h.openSpecial _ _
  | dup oldfd => exact h.dup _
  | dup2 oldfd newfd => exact h.dup2 _ _
  | close fd =>
    rw [FdCall.run, close_snd]
    exact h.closeFd fd
  | fcntlGetfl fd out => exact h
  | fcntlGetfd fd out => exact h
  | fcntlSetfd fd flags => exact h.fcntlSetfd _ _
  | fcntlSetfl fd flags => exact h.fcntlSetfl _ _
  | closeAllFds => exact h.closeAllFds

theorem reachable_fdInv (h : Reachable fdCalls t) : FdInv t := by
  refine h.invariant ?_ ?_
  · intro s hs
    rw [hs]
    exact initStdio_inv
  · intro s c s' hs hstep
    rw [← hstep]
    exact hs.run c

/-! ## Results of calls -/

/-- The return code names the lowest unused descriptor, or says that all are used. -/
structure AllocatesLowest (t : FdTable) (rc : ℤ) : Prop where
  full : rc = schedFdEmfile ↔ ∀ d, (t.fdtab d).used = true
  lowest : ∀ d, (t.fdtab d).used = false → (∀ e, e < d → (t.fdtab e).used = true) → rc = d.val

theorem allocatesLowest_of_full (h : ∀ d, (t.fdtab d).used = true) :
    AllocatesLowest t schedFdEmfile := by
  refine ⟨⟨fun _ => h, fun _ => rfl⟩, fun d hd => ?_⟩
  rw [h d] at hd
  cases hd

theorem allocatesLowest_of_findFreeFd (h : t.findFreeFd 0 = some d) :
    AllocatesLowest t d.val := by
  obtain ⟨hd, hbefore⟩ := findFreeFd_eq_some h
  refine ⟨⟨fun hrc => ?_, fun hall => ?_⟩, fun e he hlow => ?_⟩
  · have hneg : (d.val : ℤ) = -2 := hrc
    omega
  · rw [hall d] at hd
    cases hd
  · rcases lt_trichotomy d e with hlt | heq | hgt
    · rw [hlow d hlt] at hd
      cases hd
    · rw [heq]
    · rw [hbefore e hgt] at he
      cases he

theorem FdInv.openSpecial_lowest (h : FdInv t) {specialType : BitVec 32}
    (hvalid : specialOfileType specialType ≠ none) (statusFlags : BitVec 32) :
    AllocatesLowest t (t.openSpecial specialType statusFlags).1 := by
  obtain ⟨type, htype⟩ := Option.ne_none_iff_exists'.mp hvalid
  simp only [FdTable.openSpecial, htype]
  cases hfree : t.findFreeFd 0 with
  | none => exact allocatesLowest_of_full (findFreeFd_eq_none.mp hfree)
  | some d =>
    obtain ⟨i, hi, -⟩ := h.exists_free_ofile (findFreeFd_eq_some hfree).1
    simp only [hi]
    exact allocatesLowest_of_findFreeFd hfree

theorem dup_lowest (hvalid : (t.ofileByFd fd).isSome = true) : AllocatesLowest t (t.dup fd).1 := by
  obtain ⟨⟨o, i⟩, hlookup⟩ := Option.isSome_iff_exists.mp hvalid
  simp only [FdTable.dup, hlookup]
  cases hfree : t.findFreeFd 0 with
  | none => exact allocatesLowest_of_full (findFreeFd_eq_none.mp hfree)
  | some d => exact allocatesLowest_of_findFreeFd hfree

/-- A call that fails changes nothing. -/
theorem FdCall.run_of_neg (c : FdCall) (h : (c.run t).1 < 0) : (c.run t).2 = t := by
  cases c with
  | openSpecial specialType statusFlags =>
    simp only [FdCall.run, FdTable.openSpecial] at h ⊢
    split at h <;> try rfl
    split at h <;> try rfl
    split at h <;> try rfl
    exact absurd h (by simp)
  | dup oldfd =>
    simp only [FdCall.run, FdTable.dup] at h ⊢
    split at h <;> try rfl
    split at h <;> try rfl
    exact absurd h (by simp)
  | dup2 oldfd newfd =>
    simp only [FdCall.run, FdTable.dup2] at h ⊢
    by_cases hnew : 0 ≤ newfd.toInt ∧ newfd.toNat < schedMaxFds
    · simp only [dif_pos hnew] at h ⊢
      cases hlookup : t.ofileByFd oldfd with
      | none => rfl
      | some r =>
        simp only [hlookup] at h
        split_ifs at h
        all_goals exact absurd h (not_lt.mpr hnew.1)
    · simp only [dif_neg hnew]
  | close fd =>
    simp only [FdCall.run, FdTable.close, FdTable.closeFd] at h ⊢
    cases hlookup : t.ofileByFd fd with
    | none => rfl
    | some r =>
      simp only [hlookup] at h
      exact absurd h (by decide)
  | fcntlGetfl fd out => rfl
  | fcntlGetfd fd out => rfl
  | fcntlSetfd fd flags =>
    simp only [FdCall.run, FdTable.fcntlSetfd] at h ⊢
    split at h
    · rfl
    · exact absurd h (lt_irrefl (0 : ℤ))
  | fcntlSetfl fd flags =>
    simp only [FdCall.run, FdTable.fcntlSetfl] at h ⊢
    split at h
    · rfl
    · exact absurd h (lt_irrefl (0 : ℤ))
  | closeAllFds => exact absurd h (by simp [FdCall.run])

/-- In every state of a task's table the counts are right and the two ways to ask for
an open descriptor agree; a valid open or dup takes the lowest unused descriptor and
fails only when all are used; and a failing call changes nothing. -/
theorem fdCalls_reachable (h : Reachable fdCalls t) :
    FdInv t ∧
    (∀ fd, t.isOpen fd = true ↔ (t.ofileByFd fd).isSome = true) ∧
    (∀ specialType statusFlags, specialOfileType specialType ≠ none →
      AllocatesLowest t (t.openSpecial specialType statusFlags).1) ∧
    (∀ oldfd, (t.ofileByFd oldfd).isSome = true → AllocatesLowest t (t.dup oldfd).1) ∧
    ∀ c : FdCall, (c.run t).1 < 0 → (c.run t).2 = t := by
  have hinv := reachable_fdInv h
  exact ⟨hinv, hinv.isOpen_iff, fun _ _ hvalid => hinv.openSpecial_lowest hvalid _,
    fun _ hvalid => dup_lowest hvalid, fun c hc => c.run_of_neg hc⟩

/-- After `dup2(0, 1)` the table still has its three descriptors. -/
theorem fdCalls_reachable_dup2 : FdInv (FdTable.initStdio.dup2 0 1).2 ∧
    ((FdTable.initStdio.dup2 0 1).2.dup 1).1 = 3 := by
  have h : Reachable fdCalls (FdTable.initStdio.dup2 0 1).2 :=
    (Reachable.of_init (M := fdCalls) (s := .initStdio) rfl).step (l := .dup2 0 1) rfl
  exact ⟨(fdCalls_reachable h).1, by decide⟩

end LampVm
