import LampVm.FdInvariant

/-!
# Open files

Which descriptors share an open file is a matter of their history: each stems from one open, and
a copy stems from the same open as the descriptor it was copied from. The history is read off the
calls and their return codes. The table, which reuses its entries and counts references, agrees
with it.
-/
namespace LampVm

open Transition

/-! ## Descriptors by history -/

/-- What an open fixes for good. -/
structure FileKind where
  type : OfileType
  accmode : BitVec 32
  deriving DecidableEq, Repr

inductive FdNote
  | opened (d : Fin schedMaxFds) (kind : FileKind)
  | copied (o d : Fin schedMaxFds)
  | closed (d : Fin schedMaxFds)
  deriving DecidableEq, Repr

/-- All opens so far, in their order, and the open from which each descriptor stems. -/
structure OpenFiles where
  files : List FileKind
  origin : Fin schedMaxFds → Option ℕ

/-- The descriptors that a task starts with. -/
def OpenFiles.stdio : OpenFiles where
  files := [⟨.stdin, schedFdORdonly⟩, ⟨.stdout, schedFdOWronly⟩, ⟨.stderr, schedFdOWronly⟩]
  origin d := if d.val < 3 then some d.val else none

def OpenFiles.apply (o : OpenFiles) : FdNote → OpenFiles
  | .opened d kind => ⟨o.files ++ [kind], Function.update o.origin d (some o.files.length)⟩
  | .copied source d => { o with origin := Function.update o.origin d (o.origin source) }
  | .closed d => { o with origin := Function.update o.origin d none }

/-- The place of a descriptor in the table. -/
def descriptor (fd : BitVec 32) : Fin schedMaxFds :=
  ⟨fd.toNat % schedMaxFds, Nat.mod_lt _ (by decide)⟩

def FdNote.ofOpen (rc : ℤ) (specialType statusFlags : BitVec 32) : List FdNote :=
  match specialOfileType specialType with
  | none => []
  | some type => [.opened (descriptor (BitVec.ofInt 32 rc)) ⟨type, statusFlags &&& schedFdOAccmode⟩]

/-- What a call adds to the history, from its arguments and its return code. -/
def fdNotes (t : FdTable) (c : FdCall) : List FdNote :=
  let rc := (c.run t).1
  if rc < 0 then []
  else
    match c with
    | .openSpecial specialType statusFlags => FdNote.ofOpen rc specialType statusFlags
    | .dup oldfd => [.copied (descriptor oldfd) (descriptor (BitVec.ofInt 32 rc))]
    | .dup2 oldfd newfd =>
      if oldfd = newfd then [] else [.copied (descriptor oldfd) (descriptor newfd)]
    | .close fd => [.closed (descriptor fd)]
    | .closeAllFds => (List.finRange schedMaxFds).map .closed
    | _ => []

/-- The history up to now. -/
def openFiles (log : List FdNote) : OpenFiles := log.foldl OpenFiles.apply .stdio

/-- Both descriptors stem from one open. -/
def OpenFiles.SameOpen (o : OpenFiles) (f g : BitVec 32) : Prop :=
  o.origin (descriptor f) = o.origin (descriptor g)

instance (o : OpenFiles) (f g : BitVec 32) : Decidable (o.SameOpen f g) :=
  inferInstanceAs (Decidable (_ = _))

/-! ## The table and the history -/

/-- Each open file in use belongs to one open; `owner` says to which. -/
structure ModelsTable (owner : Fin schedMaxFds → ℕ) (t : FdTable) (o : OpenFiles) : Prop where
  inv : FdInv t
  origin : ∀ d, o.origin d = (t.target d).map owner
  distinct : ∀ i j, (t.ofiles i).used = true → (t.ofiles j).used = true → owner i = owner j → i = j
  kind : ∀ i, (t.ofiles i).used = true → o.files[owner i]? =
    some ⟨(t.ofiles i).type, (t.ofiles i).statusFlags &&& schedFdOAccmode⟩

/-- Closing a descriptor keeps what its open file is, unless the file is closed too. -/
theorem closeFd_file {t : FdTable} {fd : BitVec 32} {d i : Fin schedMaxFds} {file : Ofile}
    (hlookup : t.ofileByFd fd = some (d, i)) (hne : (t.ofiles i).refs ≠ 0)
    (heq : t.closeFd fd =
      (true, ⟨Function.update t.ofiles i file, Function.update t.fdtab d ⟨false, none, 0⟩⟩))
    (hused : file.used = true) :
    file.type = (t.ofiles i).type ∧ file.statusFlags = (t.ofiles i).statusFlags := by
  simp only [FdTable.closeFd, hlookup, if_pos hne] at heq
  have hfile := congrArg (fun p => p.2.ofiles i) heq
  simp only [Function.update_self] at hfile
  by_cases hlast : (t.ofiles i).refs - 1 = 0
  · rw [if_pos hlast] at hfile
    rw [← hfile] at hused
    cases hused
  · rw [if_neg hlast] at hfile
    rw [← hfile]
    exact ⟨rfl, rfl⟩

section ModelsTable

variable {owner : Fin schedMaxFds → ℕ} {t : FdTable} {o : OpenFiles} {d s i : Fin schedMaxFds}
  {fd : BitVec 32}

theorem descriptor_eq (h : d.val = fd.toNat) : descriptor fd = d := by
  apply Fin.ext
  change fd.toNat % schedMaxFds = d.val
  rw [← h, Nat.mod_eq_of_lt d.isLt]

theorem descriptor_ofInt (d : Fin schedMaxFds) : descriptor (BitVec.ofInt 32 (d.val : ℤ)) = d := by
  apply descriptor_eq
  have hlt : d.val < 32 := d.isLt
  rw [BitVec.ofInt_natCast, BitVec.toNat_ofNat]
  omega

/-- The table at the start. -/
theorem modelsTable_initStdio : ModelsTable Fin.val .initStdio .stdio where
  inv := initStdio_inv
  origin := by decide
  distinct i j _ _ h := Fin.ext h
  kind := by decide

/-- A fresh file on an unused descriptor. -/
theorem ModelsTable.opened (h : ModelsTable owner t o) (hd : (t.fdtab d).used = false)
    (hi : (t.ofiles i).used = false) (type : OfileType) (flags : BitVec 32) :
    ModelsTable (Function.update owner i o.files.length)
      ⟨Function.update t.ofiles i ⟨true, 1, type, flags⟩,
        Function.update t.fdtab d ⟨true, some i, 0⟩⟩
      (o.apply (.opened d ⟨type, flags &&& schedFdOAccmode⟩)) where
  inv := h.inv.openFile hd hi type flags
  origin x := by
    rw [target_update, OpenFiles.apply, if_pos rfl]
    by_cases hx : x = d
    · subst hx
      simp
    · have hne : t.target x ≠ some i := fun hxi => by
        have hused := h.inv.used_of_target hxi
        rw [hi] at hused
        cases hused
      simp only [Function.update_of_ne hx, h.origin]
      cases hj : t.target x with
      | none => rfl
      | some j =>
        have hji : j ≠ i := fun hji => hne (hji ▸ hj)
        simp [Function.update_of_ne hji]
  distinct j k hj hk heq := by
    have hsmall {j : Fin schedMaxFds} (hj : (t.ofiles j).used = true) :
        owner j < o.files.length := (List.getElem?_eq_some_iff.mp (h.kind j hj)).1
    by_cases hji : j = i
    · by_cases hki : k = i
      · exact hji.trans hki.symm
      · subst hji
        simp only [Function.update_of_ne hki] at hk
        rw [Function.update_self, Function.update_of_ne hki] at heq
        have hlt := hsmall hk
        omega
    · simp only [Function.update_of_ne hji] at hj heq
      by_cases hki : k = i
      · subst hki
        rw [Function.update_self] at heq
        have hlt := hsmall hj
        omega
      · simp only [Function.update_of_ne hki] at hk heq
        exact h.distinct j k hj hk heq
  kind j hj := by
    by_cases hji : j = i
    · subst hji
      simp [OpenFiles.apply]
    · simp only [Function.update_of_ne hji] at hj ⊢
      have hkind := h.kind j hj
      have hlt := (List.getElem?_eq_some_iff.mp hkind).1
      rw [OpenFiles.apply, List.getElem?_append_left hlt]
      exact hkind

/-- A copy on an unused descriptor. -/
theorem ModelsTable.copied (h : ModelsTable owner t o) (hs : t.target s = some i)
    (hd : (t.fdtab d).used = false) : ModelsTable owner (t.share s d i) (o.apply (.copied s d)) := by
  have hidx := (target_eq_some_iff.mp hs).2
  have hfile (j : Fin schedMaxFds) : ((t.share s d i).ofiles j).used = (t.ofiles j).used ∧
      ((t.share s d i).ofiles j).type = (t.ofiles j).type ∧
      ((t.share s d i).ofiles j).statusFlags = (t.ofiles j).statusFlags := by
    by_cases hj : j = i
    · subst hj
      simp [FdTable.share]
    · simp [FdTable.share, Function.update_of_ne hj]
  refine ⟨h.inv.share hs hd, fun x => ?_, fun j k hj hk heq => ?_, fun j hj => ?_⟩
  · have htarget : (t.share s d i).target = Function.update t.target d (some i) := by
      rw [FdTable.share, target_update, hidx]
      rfl
    rw [htarget, OpenFiles.apply]
    by_cases hx : x = d
    · subst hx
      simp [h.origin, hs]
    · simp [Function.update_of_ne hx, h.origin]
  · rw [(hfile j).1] at hj
    rw [(hfile k).1] at hk
    exact h.distinct j k hj hk heq
  · rw [(hfile j).1] at hj
    rw [(hfile j).2.1, (hfile j).2.2]
    exact h.kind j hj

/-- Closing an open descriptor. -/
theorem ModelsTable.closed (h : ModelsTable owner t o) (hlookup : t.ofileByFd fd = some (d, i)) :
    ModelsTable owner (t.closeFd fd).2 (o.apply (.closed d)) := by
  obtain ⟨-, -, htarget⟩ := ofileByFd_eq_some hlookup
  have hpos := (h.inv.used_iff i).mp (h.inv.used_of_target htarget)
  have hne : (t.ofiles i).refs ≠ 0 := by
    intro hzero
    rw [hzero] at hpos
    exact absurd hpos (by decide)
  have hinv := h.inv.closeFd fd
  obtain ⟨file, -, hused, heq⟩ := closeFd_eq hlookup hne
  have hkept : file.used = true → file.type = (t.ofiles i).type ∧
      file.statusFlags = (t.ofiles i).statusFlags := closeFd_file hlookup hne heq
  rw [heq] at hinv ⊢
  have hfile (j : Fin schedMaxFds) (hj : (Function.update t.ofiles i file j).used = true) :
      (t.ofiles j).used = true ∧ (Function.update t.ofiles i file j).type = (t.ofiles j).type ∧
        (Function.update t.ofiles i file j).statusFlags = (t.ofiles j).statusFlags := by
    by_cases hji : j = i
    · subst hji
      rw [Function.update_self] at hj ⊢
      exact ⟨(hused.mp hj).1, hkept hj⟩
    · rw [Function.update_of_ne hji] at hj ⊢
      exact ⟨hj, rfl, rfl⟩
  refine ⟨hinv, fun x => ?_, fun j k hj hk => ?_, fun j hj => ?_⟩
  · rw [target_update]
    by_cases hx : x = d
    · subst hx
      simp [OpenFiles.apply]
    · simp [OpenFiles.apply, Function.update_of_ne hx, h.origin]
  · exact h.distinct j k (hfile j hj).1 (hfile k hk).1
  · obtain ⟨hold, htype, hflags⟩ := hfile j hj
    dsimp only
    rw [htype, hflags]
    exact h.kind j hold

/-- Closing a descriptor that is not open changes nothing. -/
theorem ModelsTable.closed_unused (h : ModelsTable owner t o) (hd : (t.fdtab d).used = false) :
    ModelsTable owner t (o.apply (.closed d)) where
  inv := h.inv
  origin x := by
    by_cases hx : x = d
    · subst hx
      simp [OpenFiles.apply, h.inv.target_eq_none_iff.mpr hd]
    · simp [OpenFiles.apply, Function.update_of_ne hx, h.origin]
  distinct := h.distinct
  kind := h.kind

theorem ModelsTable.closedAll (h : ModelsTable owner t o) :
    ModelsTable owner t.closeAllFds
      (((List.finRange schedMaxFds).map FdNote.closed).foldl OpenFiles.apply o) := by
  unfold FdTable.closeAllFds
  generalize List.finRange schedMaxFds = ds
  induction ds generalizing t o with
  | nil => exact h
  | cons d ds ih =>
    simp only [List.map_cons, List.foldl_cons]
    by_cases hused : (t.fdtab d).used = true
    · rw [if_pos hused]
      obtain ⟨i, hi, -⟩ := h.inv.referred d hused
      have hval : d.val = (BitVec.ofNat 32 d.val).toNat := by
        have hlt : d.val < 32 := d.isLt
        rw [BitVec.toNat_ofNat]
        omega
      have hpos : 0 ≤ (BitVec.ofNat 32 d.val).toInt := by
        have hlt : d.val < 32 := d.isLt
        rw [BitVec.toInt_eq_toNat_cond, ← hval, if_pos (by omega)]
        exact Int.natCast_nonneg _
      exact ih (h.closed (h.inv.ofileByFd_of_target hpos hval (target_eq_some_iff.mpr ⟨hused, hi⟩)))
    · rw [if_neg hused]
      exact ih (h.closed_unused (Bool.eq_false_iff.mpr hused))

/-- A copy on another descriptor, which is closed first if it is open. -/
theorem ModelsTable.dup2 (h : ModelsTable owner t o) {oldfd newfd : BitVec 32}
    (hnew : 0 ≤ newfd.toInt ∧ newfd.toNat < schedMaxFds) (hlookup : t.ofileByFd oldfd = some (s, i))
    (hne : oldfd ≠ newfd) :
    ModelsTable owner (t.dup2 oldfd newfd).2 (o.apply (.copied s (descriptor newfd))) := by
  obtain ⟨-, hs, htarget⟩ := ofileByFd_eq_some hlookup
  have hd : descriptor newfd = ⟨newfd.toNat, hnew.2⟩ := descriptor_eq rfl
  have hsd : s ≠ ⟨newfd.toNat, hnew.2⟩ := by
    intro hsd
    rw [hsd] at hs
    exact hne (BitVec.eq_of_toNat_eq hs.symm)
  rw [FdTable.dup2, dif_pos hnew, hlookup, hd]
  dsimp only
  rw [if_neg hne]
  by_cases hused : (t.fdtab ⟨newfd.toNat, hnew.2⟩).used = true
  · rw [if_pos hused]
    obtain ⟨j, hj, -⟩ := h.inv.referred _ hused
    have hopen := h.inv.ofileByFd_of_target hnew.1 rfl (target_eq_some_iff.mpr ⟨hused, hj⟩)
    have hclose := h.inv.closeFd_fdtab hopen
    have hcopied := (h.closed hopen).copied (s := s) (i := i) (d := ⟨newfd.toNat, hnew.2⟩)
      (by rw [FdTable.target, hclose, Function.update_of_ne hsd]; exact htarget)
      (by rw [hclose, Function.update_self])
    have hsame : (o.apply (.closed ⟨newfd.toNat, hnew.2⟩)).apply (.copied s ⟨newfd.toNat, hnew.2⟩) =
        o.apply (.copied s ⟨newfd.toNat, hnew.2⟩) := by
      simp [OpenFiles.apply, Function.update_of_ne hsd]
    rwa [hsame] at hcopied
  · rw [if_neg hused]
    exact h.copied htarget (Bool.eq_false_iff.mpr hused)

/-- Changing flags keeps the history, as long as the access mode stays. -/
theorem ModelsTable.congr {t' : FdTable} (h : ModelsTable owner t o)
    (hfd : ∀ d, (t'.fdtab d).used = (t.fdtab d).used ∧
      (t'.fdtab d).ofileIdx = (t.fdtab d).ofileIdx)
    (hfile : ∀ i, (t'.ofiles i).used = (t.ofiles i).used ∧
      (t'.ofiles i).refs = (t.ofiles i).refs ∧ (t'.ofiles i).type = (t.ofiles i).type ∧
      (t'.ofiles i).statusFlags &&& schedFdOAccmode =
        (t.ofiles i).statusFlags &&& schedFdOAccmode) : ModelsTable owner t' o where
  inv := h.inv.congr hfd fun i => ⟨(hfile i).1, (hfile i).2.1⟩
  origin d := by
    have htarget : t'.target d = t.target d := by simp only [FdTable.target, hfd d]
    rw [htarget, h.origin]
  distinct i j hi hj := by
    rw [(hfile i).1] at hi
    rw [(hfile j).1] at hj
    exact h.distinct i j hi hj
  kind i hi := by
    rw [(hfile i).1] at hi
    rw [(hfile i).2.2.1, (hfile i).2.2.2]
    exact h.kind i hi

end ModelsTable

/-! ## Runs -/

/-- What `F_SETFL` makes of the status flags. -/
def withNonblock (flags x : BitVec 32) : BitVec 32 :=
  (flags &&& ~~~schedFdONonblock) ||| (x &&& schedFdONonblock)

section Run

variable {owner : Fin schedMaxFds → ℕ} {t : FdTable} {o : OpenFiles} {d i : Fin schedMaxFds}
  {fd f g x : BitVec 32}

theorem withNonblock_accmode (flags x : BitVec 32) :
    withNonblock flags x &&& schedFdOAccmode = flags &&& schedFdOAccmode := by
  have hkeep : ~~~schedFdONonblock &&& schedFdOAccmode = schedFdOAccmode := by decide
  have hdrop : schedFdONonblock &&& schedFdOAccmode = 0 := by decide
  rw [withNonblock, BitVec.and_or_distrib_right, BitVec.and_assoc, BitVec.and_assoc, hkeep, hdrop]
  simp

theorem withNonblock_nonblock (flags x : BitVec 32) :
    withNonblock flags x &&& schedFdONonblock = x &&& schedFdONonblock := by
  have hdrop : ~~~schedFdONonblock &&& schedFdONonblock = 0 := by decide
  rw [withNonblock, BitVec.and_or_distrib_right, BitVec.and_assoc, BitVec.and_assoc, hdrop]
  simp

theorem withNonblock_rest (flags x : BitVec 32) :
    withNonblock flags x &&& ~~~schedFdONonblock = flags &&& ~~~schedFdONonblock := by
  have hdrop : schedFdONonblock &&& ~~~schedFdONonblock = 0 := by decide
  rw [withNonblock, BitVec.and_or_distrib_right, BitVec.and_assoc, BitVec.and_assoc, hdrop]
  simp

theorem setfl_eq (hlookup : t.ofileByFd fd = some (d, i)) (x : BitVec 32) :
    t.fcntlSetfl fd x = (schedFdOk, ⟨Function.update t.ofiles i
      { t.ofiles i with statusFlags := withNonblock (t.ofiles i).statusFlags x }, t.fdtab⟩) := by
  rw [FdTable.fcntlSetfl, hlookup]
  rfl

theorem setfd_eq (hlookup : t.ofileByFd fd = some (d, i)) (x : BitVec 32) :
    t.fcntlSetfd fd x = (schedFdOk, ⟨t.ofiles, Function.update t.fdtab d
      { t.fdtab d with fdFlags := x &&& schedFdCloexec }⟩) := by
  rw [FdTable.fcntlSetfd, hlookup]

theorem ModelsTable.setfl (h : ModelsTable owner t o) (hlookup : t.ofileByFd fd = some (d, i))
    (x : BitVec 32) : ModelsTable owner (t.fcntlSetfl fd x).2 o := by
  rw [setfl_eq hlookup]
  refine h.congr (fun e => ⟨rfl, rfl⟩) fun j => ?_
  by_cases hj : j = i
  · subst hj
    simp only [Function.update_self, withNonblock_accmode, and_self]
  · simp [Function.update_of_ne hj]

theorem ModelsTable.setfd (h : ModelsTable owner t o) (hlookup : t.ofileByFd fd = some (d, i))
    (x : BitVec 32) : ModelsTable owner (t.fcntlSetfd fd x).2 o := by
  rw [setfd_eq hlookup]
  refine h.congr (fun e => ?_) fun j => ⟨rfl, rfl, rfl, rfl⟩
  by_cases he : e = d
  · subst he
    simp
  · simp [Function.update_of_ne he]

/-- A successful open. -/
theorem openSpecial_cases (specialType statusFlags : BitVec 32) :
    ((t.openSpecial specialType statusFlags).1 < 0 ∧
      (t.openSpecial specialType statusFlags).2 = t) ∨
    ∃ type d i, specialOfileType specialType = some type ∧ (t.fdtab d).used = false ∧
      (t.ofiles i).used = false ∧ t.openSpecial specialType statusFlags = ((d.val : ℤ),
        ⟨Function.update t.ofiles i
            ⟨true, 1, type, statusFlags &&& (schedFdOAccmode ||| schedFdONonblock)⟩,
          Function.update t.fdtab d ⟨true, some i, 0⟩⟩) := by
  have hinval : schedFdEinval < 0 := by decide
  have hmfile : schedFdEmfile < 0 := by decide
  unfold FdTable.openSpecial
  cases htype : specialOfileType specialType with
  | none => exact .inl ⟨hinval, rfl⟩
  | some type =>
    cases hd : t.findFreeFd 0 with
    | none => exact .inl ⟨hmfile, rfl⟩
    | some d =>
      cases hi : t.findFreeOfile with
      | none => exact .inl ⟨hmfile, rfl⟩
      | some i =>
        have hfree : (t.ofiles i).used = false := by simpa using (find?_finRange_eq_some hi).1
        exact .inr ⟨type, d, i, rfl, (findFreeFd_eq_some hd).1, hfree, rfl⟩

theorem dup_cases (oldfd : BitVec 32) :
    ((t.dup oldfd).1 < 0 ∧ (t.dup oldfd).2 = t) ∨
    ∃ s i d, t.ofileByFd oldfd = some (s, i) ∧ (t.fdtab d).used = false ∧
      t.dup oldfd = ((d.val : ℤ), t.share s d i) := by
  have hbadf : schedFdEbadf < 0 := by decide
  have hmfile : schedFdEmfile < 0 := by decide
  unfold FdTable.dup
  cases hlookup : t.ofileByFd oldfd with
  | none => exact .inl ⟨hbadf, rfl⟩
  | some r =>
    obtain ⟨s, i⟩ := r
    cases hd : t.findFreeFd 0 with
    | none => exact .inl ⟨hmfile, rfl⟩
    | some d => exact .inr ⟨s, i, d, rfl, (findFreeFd_eq_some hd).1, rfl⟩

theorem dup2_cases (oldfd newfd : BitVec 32) :
    ((t.dup2 oldfd newfd).1 < 0 ∧ (t.dup2 oldfd newfd).2 = t) ∨
    (0 ≤ newfd.toInt ∧ newfd.toNat < schedMaxFds) ∧ (t.dup2 oldfd newfd).1 = newfd.toInt ∧
      (∃ r, t.ofileByFd oldfd = some r) ∧ (oldfd = newfd → (t.dup2 oldfd newfd).2 = t) := by
  have hbadf : schedFdEbadf < 0 := by decide
  have hinval : schedFdEinval < 0 := by decide
  unfold FdTable.dup2
  by_cases hnew : 0 ≤ newfd.toInt ∧ newfd.toNat < schedMaxFds
  · rw [dif_pos hnew]
    cases hlookup : t.ofileByFd oldfd with
    | none => exact .inl ⟨hbadf, rfl⟩
    | some r =>
      refine .inr ⟨hnew, ?_, ⟨r, rfl⟩, fun heq => ?_⟩
      · dsimp only
        split_ifs <;> rfl
      · dsimp only
        rw [if_pos heq]
  · rw [dif_neg hnew]
    exact .inl ⟨hinval, rfl⟩

/-- Every call keeps the table in step with its history. -/
theorem ModelsTable.run (h : ModelsTable owner t o) (c : FdCall) :
    ∃ owner', ModelsTable owner' (c.run t).2 ((fdNotes t c).foldl OpenFiles.apply o) := by
  by_cases hneg : (c.run t).1 < 0
  · have hnotes : fdNotes t c = [] := if_pos hneg
    rw [hnotes, c.run_of_neg hneg]
    exact ⟨owner, h⟩
  · cases c with
    | openSpecial specialType statusFlags =>
      have hnotes : fdNotes t (.openSpecial specialType statusFlags) =
          FdNote.ofOpen (t.openSpecial specialType statusFlags).1 specialType statusFlags :=
        if_neg hneg
      rcases openSpecial_cases (t := t) specialType statusFlags with
        ⟨hrc, -⟩ | ⟨type, d, i, htype, hd, hi, hrun⟩
      · exact absurd hrc hneg
      · rw [hnotes, FdCall.run, hrun]
        simp only [FdNote.ofOpen, htype, descriptor_ofInt]
        have hmode : statusFlags &&& (schedFdOAccmode ||| schedFdONonblock) &&& schedFdOAccmode =
            statusFlags &&& schedFdOAccmode := by
          rw [BitVec.and_assoc]
          rfl
        have hopened := h.opened hd hi type (statusFlags &&& (schedFdOAccmode ||| schedFdONonblock))
        rw [hmode] at hopened
        exact ⟨_, hopened⟩
    | dup oldfd =>
      have hnotes : fdNotes t (.dup oldfd) =
          [.copied (descriptor oldfd) (descriptor (BitVec.ofInt 32 (t.dup oldfd).1))] := if_neg hneg
      rcases dup_cases (t := t) oldfd with ⟨hrc, -⟩ | ⟨s, i, d, hlookup, hd, hrun⟩
      · exact absurd hrc hneg
      · obtain ⟨-, hs, htarget⟩ := ofileByFd_eq_some hlookup
        rw [hnotes, FdCall.run, hrun]
        simp only [descriptor_ofInt, descriptor_eq hs]
        exact ⟨owner, h.copied htarget hd⟩
    | dup2 oldfd newfd =>
      have hnotes : fdNotes t (.dup2 oldfd newfd) = if oldfd = newfd then []
          else [.copied (descriptor oldfd) (descriptor newfd)] := if_neg hneg
      rcases dup2_cases (t := t) oldfd newfd with ⟨hrc, -⟩ | ⟨hnew, -, ⟨⟨s, i⟩, hlookup⟩, hsame⟩
      · exact absurd hrc hneg
      · rw [hnotes]
        by_cases heq : oldfd = newfd
        · rw [FdCall.run, hsame heq, if_pos heq]
          exact ⟨owner, h⟩
        · obtain ⟨-, hs, -⟩ := ofileByFd_eq_some hlookup
          rw [if_neg heq, descriptor_eq hs]
          exact ⟨owner, h.dup2 hnew hlookup heq⟩
    | close fd =>
      have hnotes : fdNotes t (.close fd) = [.closed (descriptor fd)] := if_neg hneg
      cases hlookup : t.ofileByFd fd with
      | none =>
        have hbadf : schedFdEbadf < 0 := by decide
        rw [FdCall.run, FdTable.close, FdTable.closeFd, hlookup] at hneg
        exact absurd hbadf hneg
      | some r =>
        obtain ⟨d, i⟩ := r
        obtain ⟨-, hd, -⟩ := ofileByFd_eq_some hlookup
        rw [hnotes, FdCall.run, close_snd, descriptor_eq hd]
        exact ⟨owner, h.closed hlookup⟩
    | fcntlGetfl fd out =>
      have hnotes : fdNotes t (.fcntlGetfl fd out) = [] := if_neg hneg
      rw [hnotes]
      exact ⟨owner, h⟩
    | fcntlGetfd fd out =>
      have hnotes : fdNotes t (.fcntlGetfd fd out) = [] := if_neg hneg
      rw [hnotes]
      exact ⟨owner, h⟩
    | fcntlSetfd fd flags =>
      have hnotes : fdNotes t (.fcntlSetfd fd flags) = [] := if_neg hneg
      rw [hnotes]
      cases hlookup : t.ofileByFd fd with
      | none =>
        rw [FdCall.run, FdTable.fcntlSetfd, hlookup]
        exact ⟨owner, h⟩
      | some r => exact ⟨owner, h.setfd hlookup flags⟩
    | fcntlSetfl fd flags =>
      have hnotes : fdNotes t (.fcntlSetfl fd flags) = [] := if_neg hneg
      rw [hnotes]
      cases hlookup : t.ofileByFd fd with
      | none =>
        rw [FdCall.run, FdTable.fcntlSetfl, hlookup]
        exact ⟨owner, h⟩
      | some r => exact ⟨owner, h.setfl hlookup flags⟩
    | closeAllFds =>
      rw [fdNotes, if_neg hneg]
      exact ⟨owner, h.closedAll⟩

theorem modelsTable_of_reachable {log : List FdNote}
    (h : Reachable (fdCalls.logged fdNotes) (t, log)) :
    ∃ owner, ModelsTable owner t (openFiles log) := by
  refine h.invariant (P := fun p => ∃ owner, ModelsTable owner p.1 (openFiles p.2)) ?_ ?_
  · rintro ⟨t, log⟩ ⟨ht, hlog⟩
    obtain rfl : t = .initStdio := ht
    obtain rfl : log = [] := hlog
    exact ⟨_, modelsTable_initStdio⟩
  · rintro ⟨t, log⟩ c ⟨t', log'⟩ ⟨owner, hR⟩ ⟨hstep, hlog⟩
    obtain rfl : (c.run t).2 = t' := hstep
    obtain rfl : log' = log ++ fdNotes t c := hlog
    obtain ⟨owner', hR'⟩ := hR.run c
    refine ⟨owner', ?_⟩
    rw [openFiles, List.foldl_append]
    exact hR'

/-- Opens are only added. -/
theorem files_extend (log later : List FdNote) :
    (openFiles log).files <+: (openFiles (log ++ later)).files := by
  rw [openFiles, openFiles, List.foldl_append]
  generalize log.foldl OpenFiles.apply .stdio = o
  induction later generalizing o with
  | nil => exact List.prefix_rfl
  | cons note later ih =>
    refine List.IsPrefix.trans ?_ (ih (o.apply note))
    cases note with
    | opened d kind => exact List.prefix_append _ _
    | copied source d => exact List.prefix_rfl
    | closed d => exact List.prefix_rfl

end Run

/-! ## Sharing -/

/-- A call that makes a descriptor when it succeeds. -/
def FdCall.creates : FdCall → Prop
  | .openSpecial _ _ | .dup _ => True
  | .dup2 oldfd newfd => oldfd ≠ newfd
  | _ => False

/-- `F_SETFL` on `f` is seen through `g`. -/
def FdTable.Observes (t : FdTable) (f g : BitVec 32) : Prop :=
  ∀ x, (t.fcntlSetfl f x).2.isNonblock g = decide (x &&& schedFdONonblock ≠ 0) ∧
    ∃ flags, (t.fcntlSetfl f x).2.fcntlGetfl g true = (schedFdOk, some flags) ∧
      flags &&& schedFdONonblock = x &&& schedFdONonblock

/-- What a table owes to its history. -/
structure SharesFiles (t : FdTable) (o : OpenFiles) : Prop where
  observes : ∀ f g, t.isOpen f = true → t.isOpen g = true → (t.Observes f g ↔ o.SameOpen f g)
  /-- `F_SETFL` changes one bit of the status flags, seen from any descriptor. -/
  setfl : ∀ f g x, t.isOpen f = true → t.isOpen g = true → ∃ flags flags',
    t.fcntlGetfl g true = (schedFdOk, some flags) ∧
    (t.fcntlSetfl f x).2.fcntlGetfl g true = (schedFdOk, some flags') ∧
    flags' &&& ~~~schedFdONonblock = flags &&& ~~~schedFdONonblock ∧
    (¬ o.SameOpen f g → flags' = flags ∧
      (t.fcntlSetfl f x).2.isNonblock g = t.isNonblock g) ∧
    (t.fcntlSetfl f x).2.fdType g = t.fdType g ∧
    (t.fcntlSetfl f x).2.fcntlGetfd g true = t.fcntlGetfd g true
  /-- Type and access mode are those of the open. -/
  kind : ∀ g, t.isOpen g = true → ∃ k file, o.origin (descriptor g) = some k ∧
    t.ofile? g = some file ∧ o.files[k]? = some ⟨file.type, file.statusFlags &&& schedFdOAccmode⟩
  setfd : ∀ f g x, t.isOpen f = true → t.isOpen g = true →
    (t.fcntlSetfd f x).2.fcntlGetfd g true =
      (if f = g then (schedFdOk, some (x &&& schedFdCloexec)) else t.fcntlGetfd g true) ∧
    (t.fcntlSetfd f x).2.ofile? g = t.ofile? g
  created : ∀ c : FdCall, c.creates → 0 ≤ (c.run t).1 →
    (c.run t).2.fcntlGetfd (BitVec.ofInt 32 (c.run t).1) true = (schedFdOk, some 0)

section Sharing

variable {owner : Fin schedMaxFds → ℕ} {t : FdTable} {o : OpenFiles} {d i e j : Fin schedMaxFds}
  {f g x : BitVec 32}

theorem FdInv.lookup_of_isOpen (h : FdInv t) (hopen : t.isOpen f = true) :
    ∃ d i, t.ofileByFd f = some (d, i) := by
  obtain ⟨⟨d, i⟩, hlookup⟩ := Option.isSome_iff_exists.mp ((h.isOpen_iff f).mp hopen)
  exact ⟨d, i, hlookup⟩

theorem getfl_of_lookup (h : t.ofileByFd g = some (e, j)) :
    t.fcntlGetfl g true = (schedFdOk, some (t.ofiles j).statusFlags) := by
  rw [FdTable.fcntlGetfl, if_neg (by decide), h]

theorem getfd_of_lookup (h : t.ofileByFd g = some (e, j)) :
    t.fcntlGetfd g true = (schedFdOk, some (t.fdtab e).fdFlags) := by
  rw [FdTable.fcntlGetfd, if_neg (by decide), h]

theorem ofile_of_lookup (h : t.ofileByFd g = some (e, j)) : t.ofile? g = some (t.ofiles j) := by
  rw [FdTable.ofile?, h]
  rfl

/-- The lookup depends on what the invariant speaks of. -/
theorem FdInv.lookup_congr {t' : FdTable} (h : FdInv t') (htarget : t'.target = t.target)
    (hlookup : t.ofileByFd g = some (e, j)) : t'.ofileByFd g = some (e, j) := by
  obtain ⟨hg, he, hj⟩ := ofileByFd_eq_some hlookup
  exact h.ofileByFd_of_target hg he (htarget ▸ hj)

theorem ModelsTable.origin_of_lookup (h : ModelsTable owner t o)
    (hlookup : t.ofileByFd f = some (d, i)) : o.origin (descriptor f) = some (owner i) := by
  obtain ⟨-, hd, htarget⟩ := ofileByFd_eq_some hlookup
  rw [descriptor_eq hd, h.origin, htarget]
  rfl

/-- Descriptors stem from one open when they refer to one open file. -/
theorem ModelsTable.sameOpen_iff (h : ModelsTable owner t o) (hf : t.ofileByFd f = some (d, i))
    (hg : t.ofileByFd g = some (e, j)) : o.SameOpen f g ↔ i = j := by
  rw [OpenFiles.SameOpen, h.origin_of_lookup hf, h.origin_of_lookup hg, Option.some.injEq]
  constructor
  · exact h.distinct i j (h.inv.used_of_target (ofileByFd_eq_some hf).2.2)
      (h.inv.used_of_target (ofileByFd_eq_some hg).2.2)
  · exact congrArg owner

/-- The lookup after `F_SETFL`. -/
theorem ModelsTable.setfl_lookup (h : ModelsTable owner t o) (hf : t.ofileByFd f = some (d, i))
    (hg : t.ofileByFd g = some (e, j)) (x : BitVec 32) :
    (t.fcntlSetfl f x).2.ofileByFd g = some (e, j) ∧
    (t.fcntlSetfl f x).2.ofiles j =
      (if i = j then { t.ofiles j with statusFlags := withNonblock (t.ofiles j).statusFlags x }
        else t.ofiles j) ∧
    (t.fcntlSetfl f x).2.fdtab = t.fdtab := by
  have hinv := (h.setfl hf x).inv
  rw [setfl_eq hf] at hinv ⊢
  refine ⟨hinv.lookup_congr (t := t) rfl hg, ?_, rfl⟩
  by_cases hij : i = j
  · subst hij
    simp
  · simp [hij, Function.update_of_ne (Ne.symm hij)]

theorem ModelsTable.observes_iff (h : ModelsTable owner t o) (hf : t.isOpen f = true)
    (hg : t.isOpen g = true) : t.Observes f g ↔ o.SameOpen f g := by
  obtain ⟨d, i, hf⟩ := h.inv.lookup_of_isOpen hf
  obtain ⟨e, j, hg⟩ := h.inv.lookup_of_isOpen hg
  rw [h.sameOpen_iff hf hg]
  constructor
  · intro hall
    by_contra hij
    have hsame (x : BitVec 32) : decide ((t.ofiles j).statusFlags &&& schedFdONonblock ≠ 0) =
        decide (x &&& schedFdONonblock ≠ 0) := by
      obtain ⟨hlookup, hfile, -⟩ := h.setfl_lookup hf hg x
      rw [← (hall x).1, FdTable.isNonblock, ofile_of_lookup hlookup, hfile, if_neg hij]
    exact absurd ((hsame 0).symm.trans (hsame schedFdONonblock)) (by decide)
  · rintro rfl x
    obtain ⟨hlookup, hfile, -⟩ := h.setfl_lookup hf hg x
    rw [if_pos rfl] at hfile
    refine ⟨?_, withNonblock (t.ofiles i).statusFlags x, ?_, withNonblock_nonblock _ x⟩
    · rw [FdTable.isNonblock, ofile_of_lookup hlookup, hfile]
      simp only [withNonblock_nonblock]
    · rw [getfl_of_lookup hlookup, hfile]

/-- A descriptor just made. -/
theorem getfd_created (h : FdInv t) (d : Fin schedMaxFds) (hused : (t.fdtab d).used = true)
    (hflags : (t.fdtab d).fdFlags = 0) :
    t.fcntlGetfd (BitVec.ofInt 32 (d.val : ℤ)) true = (schedFdOk, some 0) := by
  have hlt : d.val < 32 := d.isLt
  have hval : d.val = (BitVec.ofInt 32 (d.val : ℤ)).toNat := by
    rw [BitVec.ofInt_natCast, BitVec.toNat_ofNat]
    omega
  have hpos : 0 ≤ (BitVec.ofInt 32 (d.val : ℤ)).toInt := by
    rw [BitVec.toInt_eq_toNat_cond, ← hval, if_pos (by omega)]
    exact Int.natCast_nonneg _
  obtain ⟨i, hi, -⟩ := h.referred d hused
  rw [getfd_of_lookup (h.ofileByFd_of_target hpos hval (target_eq_some_iff.mpr ⟨hused, hi⟩)), hflags]

theorem dup2_entry {oldfd newfd : BitVec 32} (hnew : 0 ≤ newfd.toInt ∧ newfd.toNat < schedMaxFds)
    (hlookup : t.ofileByFd oldfd = some (d, i)) (hne : oldfd ≠ newfd) :
    ((t.dup2 oldfd newfd).2.fdtab ⟨newfd.toNat, hnew.2⟩).used = true ∧
      ((t.dup2 oldfd newfd).2.fdtab ⟨newfd.toNat, hnew.2⟩).fdFlags = 0 := by
  rw [FdTable.dup2, dif_pos hnew, hlookup]
  dsimp only
  rw [if_neg hne]
  simp [FdTable.share]

theorem ModelsTable.sharesFiles (h : ModelsTable owner t o) : SharesFiles t o where
  observes f g hf hg := h.observes_iff hf hg
  setfl f g x hf hg := by
    obtain ⟨d, i, hf⟩ := h.inv.lookup_of_isOpen hf
    obtain ⟨e, j, hg⟩ := h.inv.lookup_of_isOpen hg
    obtain ⟨hlookup, hfile, htab⟩ := h.setfl_lookup hf hg x
    refine ⟨_, _, getfl_of_lookup hg, getfl_of_lookup hlookup, ?_, fun happart => ?_, ?_, ?_⟩
    · rw [hfile]
      split_ifs
      · exact withNonblock_rest _ x
      · rfl
    · have hij : ¬ i = j := fun hij => happart ((h.sameOpen_iff hf hg).mpr hij)
      rw [if_neg hij] at hfile
      rw [FdTable.isNonblock, FdTable.isNonblock, ofile_of_lookup hlookup, ofile_of_lookup hg, hfile]
      exact ⟨rfl, rfl⟩
    · rw [FdTable.fdType, FdTable.fdType, ofile_of_lookup hlookup, ofile_of_lookup hg, hfile]
      split_ifs <;> rfl
    · rw [getfd_of_lookup hlookup, getfd_of_lookup hg, htab]
  kind g hg := by
    obtain ⟨e, j, hg⟩ := h.inv.lookup_of_isOpen hg
    exact ⟨owner j, t.ofiles j, h.origin_of_lookup hg, ofile_of_lookup hg,
      h.kind j (h.inv.used_of_target (ofileByFd_eq_some hg).2.2)⟩
  setfd f g x hf hg := by
    obtain ⟨d, i, hf⟩ := h.inv.lookup_of_isOpen hf
    obtain ⟨e, j, hg⟩ := h.inv.lookup_of_isOpen hg
    have hinv := (h.setfd hf x).inv
    have htarget : (t.fcntlSetfd f x).2.target = t.target := by
      rw [setfd_eq hf, target_update]
      exact Function.update_eq_self d t.target
    have hlookup := hinv.lookup_congr htarget hg
    refine ⟨?_, ?_⟩
    · rw [getfd_of_lookup hlookup, getfd_of_lookup hg, setfd_eq hf]
      dsimp only
      by_cases hfg : f = g
      · subst hfg
        rw [hf] at hg
        obtain ⟨rfl, -⟩ := Prod.mk.inj (Option.some.inj hg)
        rw [if_pos rfl, Function.update_self]
      · have hed : e ≠ d := by
          intro hed
          have hfd := (ofileByFd_eq_some hf).2.1
          have hge := (ofileByFd_eq_some hg).2.1
          rw [hed] at hge
          exact hfg (BitVec.eq_of_toNat_eq (hfd.symm.trans hge))
        rw [if_neg hfg, Function.update_of_ne hed]
    · rw [ofile_of_lookup hlookup, ofile_of_lookup hg, setfd_eq hf]
  created c hc hrc := by
    have hinv := h.inv.run c
    cases c with
    | openSpecial specialType statusFlags =>
      rcases openSpecial_cases (t := t) specialType statusFlags with
        ⟨hneg, -⟩ | ⟨type, d, i, -, -, -, hrun⟩
      · exact absurd hneg (not_lt.mpr hrc)
      · simp only [FdCall.run, hrun] at hinv ⊢
        exact getfd_created hinv d (by simp) (by simp)
    | dup oldfd =>
      rcases dup_cases (t := t) oldfd with ⟨hneg, -⟩ | ⟨s, i, d, -, -, hrun⟩
      · exact absurd hneg (not_lt.mpr hrc)
      · simp only [FdCall.run, hrun] at hinv ⊢
        exact getfd_created hinv d (by simp [FdTable.share]) (by simp [FdTable.share])
    | dup2 oldfd newfd =>
      rcases dup2_cases (t := t) oldfd newfd with ⟨hneg, -⟩ | ⟨hnew, hret, ⟨⟨s, i⟩, hlookup⟩, -⟩
      · exact absurd hneg (not_lt.mpr hrc)
      · obtain ⟨hused, hflags⟩ := dup2_entry hnew hlookup hc
        have hcreated := getfd_created hinv ⟨newfd.toNat, hnew.2⟩ hused hflags
        rw [BitVec.ofInt_natCast, BitVec.ofNat_toNat, BitVec.setWidth_eq] at hcreated
        have hfd : BitVec.ofInt 32 (FdCall.run t (.dup2 oldfd newfd)).1 = newfd := by
          rw [FdCall.run, hret, BitVec.ofInt_toInt]
        rw [hfd]
        exact hcreated
    | _ => exact hc.elim

/-- In every state of a task's table, descriptors share the nonblocking flag exactly when they
stem from one open, and no other flag changes; the descriptor flags belong to one descriptor, and
are clear when it is made. From there on, whatever is called, the descriptors of an open have its
type and access mode. -/
theorem open_files_shared {log : List FdNote} (h : Reachable (fdCalls.logged fdNotes) (t, log)) :
    SharesFiles t (openFiles log) ∧
    ∀ (ls : List FdCall) (u : FdTable) (log' : List FdNote),
      Run (fdCalls.logged fdNotes) (t, log) ls (u, log') →
      ∀ f g, t.isOpen f = true → u.isOpen g = true →
        (openFiles log).origin (descriptor f) = (openFiles log').origin (descriptor g) →
        ∃ file file', t.ofile? f = some file ∧ u.ofile? g = some file' ∧ file'.type = file.type ∧
          file'.statusFlags &&& schedFdOAccmode = file.statusFlags &&& schedFdOAccmode := by
  have hshares {t : FdTable} {log : List FdNote}
      (h : Reachable (fdCalls.logged fdNotes) (t, log)) : SharesFiles t (openFiles log) := by
    obtain ⟨owner, hR⟩ := modelsTable_of_reachable h
    exact hR.sharesFiles
  refine ⟨hshares h, fun ls u log' hrun f g hf hg hsame => ?_⟩
  obtain ⟨later, hlater⟩ := hrun.logged_append
  obtain rfl : log' = log ++ later := hlater
  obtain ⟨k, file, hk, hfile, hkind⟩ := (hshares h).kind f hf
  obtain ⟨k', file', hk', hfile', hkind'⟩ := (hshares (h.run hrun)).kind g hg
  obtain rfl : k = k' := Option.some.inj (hk.symm.trans (hsame.trans hk'))
  have hlt := (List.getElem?_eq_some_iff.mp hkind).1
  obtain ⟨rest, hrest⟩ := files_extend log later
  rw [← hrest, List.getElem?_append_left hlt, hkind, Option.some.injEq, FileKind.mk.injEq] at hkind'
  exact ⟨file, file', hfile, hfile', hkind'.1.symm, hkind'.2.symm⟩

end Sharing

/-- Descriptor 0 is copied to 3, 3 to 7, and 3 is closed: 7 still shares with 0. -/
theorem open_files_shared_chain : ∃ t log, Reachable (fdCalls.logged fdNotes) (t, log) ∧
    t.isOpen 3 = false ∧ t.Observes 0 7 ∧ ¬ t.Observes 0 1 := by
  have hstart : Reachable (fdCalls.logged fdNotes) (.initStdio, []) := .of_init ⟨rfl, rfl⟩
  have hdup := hstart.step (t := (_, _)) (l := .dup 0) ⟨rfl, rfl⟩
  have hdup2 := hdup.step (t := (_, _)) (l := .dup2 3 7) ⟨rfl, rfl⟩
  have hclose := hdup2.step (t := (_, _)) (l := .close 3) ⟨rfl, rfl⟩
  have hshares := (open_files_shared hclose).1
  refine ⟨_, _, hclose, by decide, ?_, ?_⟩
  · exact (hshares.observes 0 7 (by decide) (by decide)).mpr (by decide)
  · exact fun h => absurd ((hshares.observes 0 1 (by decide) (by decide)).mp h) (by decide)

end LampVm
