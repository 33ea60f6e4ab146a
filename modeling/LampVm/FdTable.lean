import Mathlib.Data.Fin.Basic
import Mathlib.Logic.Function.Basic
import Mathlib.Tactic

/-!
# A task's file descriptors

The descriptor table of `sched.c`: descriptors refer to open files of the same task,
and each open file counts the descriptors that refer to it.
-/
namespace LampVm

abbrev schedMaxFds : ℕ := 32

instance : NeZero schedMaxFds := ⟨by decide⟩

inductive OfileType
  | none | stdin | stdout | stderr | devNull | devZero | devTty | socket
  deriving DecidableEq, Repr

abbrev schedFdORdonly : BitVec 32 := 0
abbrev schedFdOWronly : BitVec 32 := 1

structure Ofile where
  used : Bool
  refs : BitVec 32
  type : OfileType
  statusFlags : BitVec 32
  deriving DecidableEq, Repr

/-- `ofileIdx` is `none` for `SCHED_FD_OFILE_INVALID`. -/
structure Fdent where
  used : Bool
  ofileIdx : Option (Fin schedMaxFds)
  fdFlags : BitVec 32
  deriving DecidableEq, Repr

structure FdTable where
  ofiles : Fin schedMaxFds → Ofile
  fdtab : Fin schedMaxFds → Fdent

/-- All bytes zero, as `sched_clear_task` leaves a table. -/
def FdTable.zero : FdTable where
  ofiles _ := ⟨false, 0, .none, 0⟩
  fdtab _ := ⟨false, some 0, 0⟩

def FdTable.clear : FdTable where
  ofiles _ := ⟨false, 0, .none, 0⟩
  fdtab _ := ⟨false, none, 0⟩

/-- `sched_fd_table_init_stdio`: descriptors 0, 1 and 2 on open files of their own. -/
def FdTable.initStdio : FdTable where
  ofiles i :=
    if i = 0 then ⟨true, 1, .stdin, schedFdORdonly⟩
    else if i = 1 then ⟨true, 1, .stdout, schedFdOWronly⟩
    else if i = 2 then ⟨true, 1, .stderr, schedFdOWronly⟩
    else FdTable.clear.ofiles i
  fdtab i := if i.val < 3 then ⟨true, some i, 0⟩ else FdTable.clear.fdtab i

/-- `sched_slot_ofile_by_fd`: the descriptor and its open file. -/
def FdTable.ofileByFd (t : FdTable) (fd : BitVec 32) : Option (Fin schedMaxFds × Fin schedMaxFds) :=
  if h : 0 ≤ fd.toInt ∧ fd.toNat < schedMaxFds then
    let ent := t.fdtab ⟨fd.toNat, h.2⟩
    if ¬ ent.used then none
    else match ent.ofileIdx with
      | none => none
      | some i =>
        if ¬ (t.ofiles i).used ∨ (t.ofiles i).refs = 0 then none else some (⟨fd.toNat, h.2⟩, i)
  else none

/-- `sched_slot_close_fd`; `false` is `SCHED_FD_EBADF`. -/
def FdTable.closeFd (t : FdTable) (fd : BitVec 32) : Bool × FdTable :=
  match t.ofileByFd fd with
  | none => (false, t)
  | some (d, i) =>
    let fdtab := Function.update t.fdtab d ⟨false, none, 0⟩
    let refs := if (t.ofiles i).refs ≠ 0 then (t.ofiles i).refs - 1 else (t.ofiles i).refs
    let file := { t.ofiles i with refs := refs }
    let file := if refs = 0 then { file with used := false, type := .none, statusFlags := 0 }
      else file
    (true, ⟨Function.update t.ofiles i file, fdtab⟩)

/-- `sched_slot_close_all_fds`. -/
def FdTable.closeAllFds (t : FdTable) : FdTable :=
  (List.finRange schedMaxFds).foldl
    (fun t d => if (t.fdtab d).used then (t.closeFd (BitVec.ofNat 32 d)).2 else t) t

/-! ## Calls

The calls of a task on its own table, with their return codes. -/

abbrev schedFdOk : ℤ := 0
abbrev schedFdEbadf : ℤ := -1
abbrev schedFdEmfile : ℤ := -2
abbrev schedFdEinval : ℤ := -3

abbrev schedFdOAccmode : BitVec 32 := 3
abbrev schedFdORdwr : BitVec 32 := 2
abbrev schedFdONonblock : BitVec 32 := 0x800
abbrev schedFdCloexec : BitVec 32 := 1

/-- `sched_slot_find_free_fd`. -/
def FdTable.findFreeFd (t : FdTable) (start : ℕ) : Option (Fin schedMaxFds) :=
  (List.finRange schedMaxFds).find? fun d => start ≤ d.val && !(t.fdtab d).used

/-- `sched_slot_find_free_ofile`. -/
def FdTable.findFreeOfile (t : FdTable) : Option (Fin schedMaxFds) :=
  (List.finRange schedMaxFds).find? fun i => !(t.ofiles i).used

/-- `sched_fd_close`. -/
def FdTable.close (t : FdTable) (fd : BitVec 32) : ℤ × FdTable :=
  match t.closeFd fd with
  | (false, t) => (schedFdEbadf, t)
  | (true, t) => (schedFdOk, t)

/-- The assignments with which `dup` and `dup2` make descriptor `d` refer to the open
file `i` of descriptor `o`. -/
def FdTable.share (t : FdTable) (o d i : Fin schedMaxFds) : FdTable where
  fdtab := Function.update t.fdtab d ⟨true, (t.fdtab o).ofileIdx, 0⟩
  ofiles := Function.update t.ofiles i { t.ofiles i with refs := (t.ofiles i).refs + 1 }

def FdTable.dup (t : FdTable) (oldfd : BitVec 32) : ℤ × FdTable :=
  match t.ofileByFd oldfd with
  | none => (schedFdEbadf, t)
  | some (o, i) =>
    match t.findFreeFd 0 with
    | none => (schedFdEmfile, t)
    | some d => (d.val, t.share o d i)

def FdTable.dup2 (t : FdTable) (oldfd newfd : BitVec 32) : ℤ × FdTable :=
  if h : 0 ≤ newfd.toInt ∧ newfd.toNat < schedMaxFds then
    match t.ofileByFd oldfd with
    | none => (schedFdEbadf, t)
    | some (o, i) =>
      if oldfd = newfd then (newfd.toInt, t)
      else
        let t := if (t.fdtab ⟨newfd.toNat, h.2⟩).used then (t.closeFd newfd).2 else t
        (newfd.toInt, t.share o ⟨newfd.toNat, h.2⟩ i)
  else (schedFdEinval, t)

/-- The `switch` of `sched_fd_open_special`. -/
def specialOfileType (specialType : BitVec 32) : Option OfileType :=
  if specialType = 1 then some .devNull
  else if specialType = 2 then some .devZero
  else if specialType = 3 then some .devTty
  else if specialType = 4 then some .socket
  else none

def FdTable.openSpecial (t : FdTable) (specialType statusFlags : BitVec 32) : ℤ × FdTable :=
  match specialOfileType specialType with
  | none => (schedFdEinval, t)
  | some type =>
    match t.findFreeFd 0 with
    | none => (schedFdEmfile, t)
    | some d =>
      match t.findFreeOfile with
      | none => (schedFdEmfile, t)
      | some i =>
        (d.val,
          { ofiles := Function.update t.ofiles i
              ⟨true, 1, type, statusFlags &&& (schedFdOAccmode ||| schedFdONonblock)⟩
            fdtab := Function.update t.fdtab d ⟨true, some i, 0⟩ })

/-- `sched_fd_fcntl_getfl`; the value is stored when there is a place for it. -/
def FdTable.fcntlGetfl (t : FdTable) (fd : BitVec 32) (out : Bool) : ℤ × Option (BitVec 32) :=
  if ¬ out then (schedFdEinval, none)
  else match t.ofileByFd fd with
    | none => (schedFdEbadf, none)
    | some (_, i) => (schedFdOk, some (t.ofiles i).statusFlags)

def FdTable.fcntlGetfd (t : FdTable) (fd : BitVec 32) (out : Bool) : ℤ × Option (BitVec 32) :=
  if ¬ out then (schedFdEinval, none)
  else match t.ofileByFd fd with
    | none => (schedFdEbadf, none)
    | some (d, _) => (schedFdOk, some (t.fdtab d).fdFlags)

def FdTable.fcntlSetfd (t : FdTable) (fd flags : BitVec 32) : ℤ × FdTable :=
  match t.ofileByFd fd with
  | none => (schedFdEbadf, t)
  | some (d, _) =>
    let ent := { t.fdtab d with fdFlags := flags &&& schedFdCloexec }
    (schedFdOk, { t with fdtab := Function.update t.fdtab d ent })

def FdTable.fcntlSetfl (t : FdTable) (fd flags : BitVec 32) : ℤ × FdTable :=
  match t.ofileByFd fd with
  | none => (schedFdEbadf, t)
  | some (_, i) =>
    let statusFlags :=
      ((t.ofiles i).statusFlags &&& ~~~schedFdONonblock) ||| (flags &&& schedFdONonblock)
    let file := { t.ofiles i with statusFlags := statusFlags }
    (schedFdOk, { t with ofiles := Function.update t.ofiles i file })

/-- `sched_fd_is_open` asks the descriptor alone. -/
def FdTable.isOpen (t : FdTable) (fd : BitVec 32) : Bool :=
  if h : 0 ≤ fd.toInt ∧ fd.toNat < schedMaxFds then (t.fdtab ⟨fd.toNat, h.2⟩).used else false

/-- The open file that the lookup of reads and writes finds. -/
def FdTable.ofile? (t : FdTable) (fd : BitVec 32) : Option Ofile :=
  (t.ofileByFd fd).map fun r => t.ofiles r.2

def FdTable.canRead (t : FdTable) (fd : BitVec 32) : Bool :=
  match t.ofile? fd with
  | none => false
  | some file =>
    let acc := file.statusFlags &&& schedFdOAccmode
    if ¬ (acc = schedFdORdonly ∨ acc = schedFdORdwr) then false
    else file.type = .stdin ∨ file.type = .devZero ∨ file.type = .devNull ∨ file.type = .devTty ∨
      file.type = .socket

def FdTable.canWrite (t : FdTable) (fd : BitVec 32) : Bool :=
  match t.ofile? fd with
  | none => false
  | some file =>
    let acc := file.statusFlags &&& schedFdOAccmode
    if ¬ (acc = schedFdOWronly ∨ acc = schedFdORdwr) then false
    else file.type = .stdout ∨ file.type = .stderr ∨ file.type = .devNull ∨ file.type = .devZero ∨
      file.type = .devTty ∨ file.type = .socket

def FdTable.isNonblock (t : FdTable) (fd : BitVec 32) : Bool :=
  match t.ofile? fd with
  | none => false
  | some file => file.statusFlags &&& schedFdONonblock ≠ 0

/-- `sched_fd_get_type` as `fd_type` uses it. -/
def FdTable.fdType (t : FdTable) (fd : BitVec 32) : OfileType :=
  match t.ofile? fd with
  | none => .none
  | some file => file.type

def FdTable.isTty (t : FdTable) (fd : BitVec 32) : Bool :=
  match t.ofile? fd with
  | none => false
  | some file =>
    file.type = .stdin ∨ file.type = .stdout ∨ file.type = .stderr ∨ file.type = .devTty

end LampVm
