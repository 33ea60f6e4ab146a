import LampVm.Dispatch
import LampVm.Readiness

/-!
# `SYS_SELECT` and `SYS_POLL`

The two calls ask the same questions of the same descriptors. Without a timeout, the sets that
`SYS_SELECT` stores have the bits of the descriptors for which `SYS_POLL` reports the event.
-/
namespace LampVm

open ByteOrder

/-! ## Bits -/

/-- The number of bits that are set. -/
def setBits (v : BitVec 32) : ℕ := ((Finset.range 32).filter fun i => v.getLsbD i = true).card

section Bits

variable {v : BitVec 32} {i j k : ℕ}

theorem toNat_and_one (v : BitVec 32) : (v &&& 1).toNat = (v.getLsbD 0).toNat := by
  have hone : (1 : BitVec 32) = BitVec.twoPow 32 0 := rfl
  rw [hone, BitVec.and_twoPow]
  cases v.getLsbD 0 <;> rfl

/-- The loop adds the bits that are left. -/
theorem countBits_spec (hv : v.toNat < 2 ^ k) (hk : k ≤ 32) (n : BitVec 32) :
    countBits k v n = n + BitVec.ofNat 32 (∑ i ∈ Finset.range k, (v.getLsbD i).toNat) := by
  induction k generalizing v n with
  | zero => simp [countBits]
  | succ k ih =>
    have hhalf : (v >>> 1).toNat < 2 ^ k := by
      rw [BitVec.toNat_ushiftRight, Nat.shiftRight_eq_div_pow]
      omega
    have hbits (i : ℕ) : (v >>> 1).getLsbD i = v.getLsbD (i + 1) := by
      rw [BitVec.getLsbD_ushiftRight, add_comm]
    rw [countBits, Finset.sum_range_succ']
    by_cases hzero : v = 0
    · simp [hzero]
    · have hlow : v &&& 1 = BitVec.ofNat 32 (v.getLsbD 0).toNat := by
        rw [← toNat_and_one, BitVec.ofNat_toNat, BitVec.setWidth_eq]
      rw [if_pos hzero, ih hhalf (by omega), hlow, BitVec.add_assoc, ← BitVec.ofNat_add]
      simp only [hbits]
      rw [add_comm (Bool.toNat _)]

theorem setBits_le (v : BitVec 32) : setBits v ≤ 32 := by
  have hcard := Finset.card_filter_le (Finset.range 32) fun i => v.getLsbD i = true
  rwa [Finset.card_range] at hcard

theorem countBitsU32_toNat (v : BitVec 32) : (countBitsU32 v).toNat = setBits v := by
  have hsum : ∑ i ∈ Finset.range 32, (v.getLsbD i).toNat = setBits v := by
    rw [setBits, Finset.card_filter]
    refine Finset.sum_congr rfl fun i _ => ?_
    cases v.getLsbD i <;> rfl
  have hle := setBits_le v
  rw [countBitsU32, countBits_spec v.isLt le_rfl, hsum]
  simp
  omega

/-- The bit of descriptor `i`. -/
theorem shift_eq_twoPow (hi : i < 32) :
    (1 : BitVec 32) <<< BitVec.ofNat 32 i = BitVec.twoPow 32 i := by
  rw [BitVec.shiftLeft_eq', BitVec.toNat_ofNat, Nat.mod_eq_of_lt (by omega)]
  rfl

theorem and_twoPow_eq_zero_iff (hi : i < 32) : v &&& BitVec.twoPow 32 i = 0 ↔ v.getLsbD i = false := by
  rw [BitVec.and_twoPow]
  cases v.getLsbD i with
  | false => simp
  | true =>
    rw [if_pos rfl]
    refine iff_of_false (fun hzero => ?_) (by decide)
    have hbit := congrArg (fun w : BitVec 32 => w.getLsbD i) hzero
    simp [hi] at hbit

theorem getLsbD_or_twoPow (hi : i < 32) :
    (v ||| BitVec.twoPow 32 i).getLsbD j = (v.getLsbD j || decide (i = j)) := by
  rw [BitVec.getLsbD_or, BitVec.getLsbD_twoPow, decide_eq_true hi, Bool.true_and]

/-- A bit that is set under two conditions. -/
theorem getLsbD_added (hi : i < 32) (b r : Bool) :
    (if b = true ∧ r = true then v ||| BitVec.twoPow 32 i else v).getLsbD j =
      (v.getLsbD j || (decide (i = j) && b && r)) := by
  cases b <;> cases r <;> simp [getLsbD_or_twoPow hi]

end Bits

/-! ## The pass over the descriptors -/

/-- The sets of a call. -/
structure FdSets where
  read : BitVec 32
  write : BitVec 32
  except : BitVec 32

def FdSets.watches (sets : FdSets) (i : ℕ) : Bool :=
  sets.read.getLsbD i || sets.write.getLsbD i || sets.except.getLsbD i

/-- What the pass adds for an open descriptor that is watched. -/
def FdSets.visit (sets : FdSets) (t : Tty) (i : BitVec 32) (out : Selected) : Selected :=
  let bit := (1 : BitVec 32) <<< i
  let out :=
    if sets.read &&& bit ≠ 0 then
      { out with
        outRead := if fdReadReady i t then out.outRead ||| bit else out.outRead
        waitReadStdin := out.waitReadStdin || (fdWaitsConsoleRead i t && !fdReadReady i t) }
    else out
  if sets.write &&& bit ≠ 0 ∧ fdWriteReady i t then
    { out with outWrite := out.outWrite ||| bit }
  else out

section Scan

variable {sets : FdSets} {t : Tty} {i j n : ℕ} {out : Selected}

theorem watches_iff (hi : i < 32) : (sets.read &&& BitVec.twoPow 32 i) |||
    (sets.write &&& BitVec.twoPow 32 i) ||| (sets.except &&& BitVec.twoPow 32 i) = 0 ↔
      sets.watches i = false := by
  change _ = 0#32 ↔ _
  rw [BitVec.or_eq_zero_iff, BitVec.or_eq_zero_iff, FdSets.watches, Bool.or_eq_false_iff,
    Bool.or_eq_false_iff]
  exact and_congr (and_congr (and_twoPow_eq_zero_iff hi) (and_twoPow_eq_zero_iff hi))
    (and_twoPow_eq_zero_iff hi)

theorem selectScan_succ (hi : i < 32) :
    selectScan sets.read sets.write sets.except t (n + 1) (BitVec.ofNat 32 i) out =
      if sets.watches i = false then
        selectScan sets.read sets.write sets.except t n (BitVec.ofNat 32 (i + 1)) out
      else if fdIsValid (BitVec.ofNat 32 i) t = true then
        selectScan sets.read sets.write sets.except t n (BitVec.ofNat 32 (i + 1))
          (sets.visit t (BitVec.ofNat 32 i) out)
      else none := by
  have hnext : BitVec.ofNat 32 i + 1 = BitVec.ofNat 32 (i + 1) := (BitVec.ofNat_add i 1).symm
  rw [selectScan, hnext]
  dsimp only
  simp only [shift_eq_twoPow hi, watches_iff hi, FdSets.visit, ite_not]

theorem visit_outRead (hi : i < 32) : (sets.visit t (BitVec.ofNat 32 i) out).outRead.getLsbD j =
    (out.outRead.getLsbD j ||
      (decide (i = j) && sets.read.getLsbD i && fdReadReady (BitVec.ofNat 32 i) t)) := by
  have hkeep : (sets.visit t (BitVec.ofNat 32 i) out).outRead =
      if sets.read.getLsbD i = true ∧ fdReadReady (BitVec.ofNat 32 i) t = true then
        out.outRead ||| BitVec.twoPow 32 i else out.outRead := by
    simp only [FdSets.visit, shift_eq_twoPow hi, ne_eq, and_twoPow_eq_zero_iff hi]
    cases sets.read.getLsbD i <;> cases fdReadReady (BitVec.ofNat 32 i) t <;> simp <;>
      split_ifs <;> rfl
  rw [hkeep]
  exact getLsbD_added hi _ _

theorem visit_outWrite (hi : i < 32) : (sets.visit t (BitVec.ofNat 32 i) out).outWrite.getLsbD j =
    (out.outWrite.getLsbD j ||
      (decide (i = j) && sets.write.getLsbD i && fdWriteReady (BitVec.ofNat 32 i) t)) := by
  have hkeep : (sets.visit t (BitVec.ofNat 32 i) out).outWrite =
      if sets.write.getLsbD i = true ∧ fdWriteReady (BitVec.ofNat 32 i) t = true then
        out.outWrite ||| BitVec.twoPow 32 i else out.outWrite := by
    simp only [FdSets.visit, shift_eq_twoPow hi, ne_eq, and_twoPow_eq_zero_iff hi]
    cases sets.write.getLsbD i <;> cases fdWriteReady (BitVec.ofNat 32 i) t <;> simp <;>
      split_ifs <;> rfl
  rw [hkeep]
  exact getLsbD_added hi _ _

/-- The pass stops at a watched descriptor that is not open. -/
theorem selectScan_none (hn : i + n ≤ 32) (hbad : ∃ j, i ≤ j ∧ j < i + n ∧ sets.watches j = true ∧
    fdIsValid (BitVec.ofNat 32 j) t = false) :
    selectScan sets.read sets.write sets.except t n (BitVec.ofNat 32 i) out = none := by
  induction n generalizing i out with
  | zero =>
    obtain ⟨j, hle, hlt, -⟩ := hbad
    omega
  | succ n ih =>
    obtain ⟨j, hle, hlt, hwatched, hclosed⟩ := hbad
    rw [selectScan_succ (by omega)]
    by_cases hij : i = j
    · subst hij
      rw [hwatched, hclosed, if_neg (by decide), if_neg (by decide)]
    · have hbad : ∃ j, i + 1 ≤ j ∧ j < i + 1 + n ∧ sets.watches j = true ∧
          fdIsValid (BitVec.ofNat 32 j) t = false := ⟨j, by omega, by omega, hwatched, hclosed⟩
      split_ifs
      · exact ih (by omega) hbad
      · exact ih (by omega) hbad
      · rfl

/-- Otherwise it sets the bits of the ready descriptors. -/
theorem selectScan_some (hn : i + n ≤ 32) (hopen : ∀ j, i ≤ j → j < i + n →
    sets.watches j = true → fdIsValid (BitVec.ofNat 32 j) t = true) : ∃ out',
    selectScan sets.read sets.write sets.except t n (BitVec.ofNat 32 i) out = some out' ∧
    (∀ j, out'.outRead.getLsbD j = (out.outRead.getLsbD j ||
      (decide (i ≤ j ∧ j < i + n) && sets.read.getLsbD j && fdReadReady (BitVec.ofNat 32 j) t))) ∧
    ∀ j, out'.outWrite.getLsbD j = (out.outWrite.getLsbD j ||
      (decide (i ≤ j ∧ j < i + n) && sets.write.getLsbD j && fdWriteReady (BitVec.ofNat 32 j) t)) := by
  induction n generalizing i out with
  | zero =>
    have hnone (j : ℕ) : decide (i ≤ j ∧ j < i + 0) = false := decide_eq_false (by omega)
    refine ⟨out, rfl, fun j => ?_, fun j => ?_⟩
    · simp only [hnone, Bool.false_and, Bool.or_false]
    · simp only [hnone, Bool.false_and, Bool.or_false]
  | succ n ih =>
    have hlater : ∀ j, i + 1 ≤ j → j < i + 1 + n → sets.watches j = true →
        fdIsValid (BitVec.ofNat 32 j) t = true := fun j hle hlt => hopen j (by omega) (by omega)
    have hrange (j : ℕ) : decide (i ≤ j ∧ j < i + (n + 1)) =
        (decide (i = j) || decide (i + 1 ≤ j ∧ j < i + 1 + n)) := by
      rw [← Bool.decide_or]
      exact decide_eq_decide.mpr (by omega)
    rw [selectScan_succ (by omega)]
    by_cases hwatched : sets.watches i = true
    · obtain ⟨out', hrun, hread, hwrite⟩ :=
        @ih (i + 1) (sets.visit t (BitVec.ofNat 32 i) out) (by omega) hlater
      refine ⟨out', ?_, fun j => ?_, fun j => ?_⟩
      · rw [if_neg (by rw [hwatched]; decide), if_pos (hopen i le_rfl (by omega) hwatched)]
        exact hrun
      · rw [hread, visit_outRead (by omega), hrange]
        by_cases hij : i = j
        · subst hij
          simp
        · simp [hij]
      · rw [hwrite, visit_outWrite (by omega), hrange]
        by_cases hij : i = j
        · subst hij
          simp
        · simp [hij]
    · have hnone := Bool.eq_false_iff.mpr hwatched
      rw [FdSets.watches, Bool.or_eq_false_iff, Bool.or_eq_false_iff] at hnone
      obtain ⟨out', hrun, hread, hwrite⟩ : ∃ out', selectScan sets.read sets.write sets.except t n
          (BitVec.ofNat 32 (i + 1)) out = some out' ∧ _ := ih (by omega) hlater
      refine ⟨out', ?_, fun j => ?_, fun j => ?_⟩
      · rw [if_pos (Bool.eq_false_iff.mpr hwatched)]
        exact hrun
      · rw [hread, hrange]
        by_cases hij : i = j
        · subst hij
          simp [hnone.1.1]
        · simp [hij]
      · rw [hwrite, hrange]
        by_cases hij : i = j
        · subst hij
          simp [hnone.1.2]
        · simp [hij]

end Scan

/-! ## The caller's sets -/

/-- A call of `SYS_SELECT` up to the end of its first round. -/
def sysSelect (regs : SyscallRegs) (d : KernelData) : Round × KernelData :=
  match startSelect regs d with
  | .inl r => (.inl r, d)
  | .inr place => place.round regs d

/-- The memory after a set is stored, if the caller passes one. -/
def storeSet (addr set : BitVec 32) (memory : Bytes) : Bytes :=
  if addr ≠ 0 then leStore memory addr.toNat 4 set.toNat else memory

/-- The memory after the three sets are stored. -/
def storeSets (regs : SyscallRegs) (outRead outWrite : BitVec 32) (memory : Bytes) : Bytes :=
  storeSet regs.arg3 0 (storeSet regs.arg2 outWrite (storeSet regs.arg1 outRead memory))

/-- The caller passes at most one of two sets, or they do not overlap. -/
def SetsApart (a b : BitVec 32) : Prop :=
  a = 0 ∨ b = 0 ∨ a.toNat + 4 ≤ b.toNat ∨ b.toNat + 4 ≤ a.toNat

section Sets

variable {addr addr' set v : BitVec 32} {memory : Bytes} {regs : SyscallRegs}

/-- A set that could be read can be stored. -/
theorem writeSet_of_readSet (h : readSet addr memory = some v) (set : BitVec 32) (memory' : Bytes) :
    writeSet addr set memory' = some (storeSet addr set memory') := by
  unfold readSet at h
  unfold writeSet storeSet
  by_cases hnull : addr ≠ 0
  · rw [if_pos hnull] at h
    rw [if_pos hnull, if_pos hnull, abiUserWrite32]
    by_cases hok : abiPtrRangeOk addr 4 = true
    · rw [if_pos hok]
    · rw [if_pos hok] at h
      cases h
  · rw [if_neg hnull, if_neg hnull]

theorem writeSets_of_readSet {inRead inWrite inExcept : BitVec 32}
    (hread : readSet regs.arg1 memory = some inRead)
    (hwrite : readSet regs.arg2 memory = some inWrite)
    (hexcept : readSet regs.arg3 memory = some inExcept) (outRead outWrite : BitVec 32) :
    writeSets regs.arg1 regs.arg2 regs.arg3 outRead outWrite memory =
      (true, storeSets regs outRead outWrite memory) := by
  unfold writeSets
  rw [writeSet_of_readSet hread]
  dsimp only
  rw [writeSet_of_readSet hwrite]
  dsimp only
  rw [writeSet_of_readSet hexcept]
  rfl

/-- The value of a set that is not passed is 0. -/
theorem readSet_storeSet (h : readSet addr memory = some v) (hnull : addr = 0 → set = 0)
    (memory' : Bytes) : readSet addr (storeSet addr set memory') = some set := by
  unfold readSet at h ⊢
  unfold storeSet
  by_cases hne : addr ≠ 0
  · rw [if_pos hne] at h ⊢
    rw [if_pos hne]
    by_cases hok : ¬ abiPtrRangeOk addr 4 = true
    · rw [if_pos hok] at h
      cases h
    · rw [if_neg hok, leNat_leStore, Nat.mod_eq_of_lt (show set.toNat < 256 ^ 4 from set.isLt),
        BitVec.ofNat_toNat, BitVec.setWidth_eq]
  · rw [if_neg hne, hnull (not_not.mp hne)]

theorem readSet_storeSet_of_apart (h : SetsApart addr addr') (set : BitVec 32) (memory : Bytes) :
    readSet addr (storeSet addr' set memory) = readSet addr memory := by
  unfold readSet storeSet
  by_cases hne : addr ≠ 0
  · by_cases hne' : addr' ≠ 0
    · have hapart := (h.resolve_left hne).resolve_left hne'
      rw [if_pos hne', if_pos hne, if_pos hne, leNat_leStore_of_disjoint hapart]
    · rw [if_neg hne']
  · rw [if_neg hne, if_neg hne]

end Sets

/-! ## The call -/

/-- A set whose bits are those of the watched descriptors below `nfds` that are ready. -/
def ReadyBits (watched : BitVec 32) (nfds : BitVec 32) (ready : BitVec 32 → Bool)
    (out : BitVec 32) : Prop :=
  ∀ i, out.getLsbD i =
    (decide (i < nfds.toNat) && watched.getLsbD i && ready (BitVec.ofNat 32 i))

section Select

variable {regs : SyscallRegs} {d : KernelData} {sets : FdSets}

/-- The call's arguments: at most 32 descriptors, no timeout, and sets that can be read. -/
structure SelectArgs (regs : SyscallRegs) (d : KernelData) (sets : FdSets) : Prop where
  nfds : regs.arg0 ≤ 32
  timeout : regs.arg4 = 0
  read : readSet regs.arg1 d.memory = some sets.read
  write : readSet regs.arg2 d.memory = some sets.write
  except : readSet regs.arg3 d.memory = some sets.except

/-- Every watched descriptor is open. -/
def FdSets.AllOpen (sets : FdSets) (nfds : BitVec 32) (t : Tty) : Prop :=
  ∀ i < nfds.toNat, sets.watches i = true → fdIsValid (BitVec.ofNat 32 i) t = true

theorem sysSelect_round (h : SelectArgs regs d sets) : sysSelect regs d =
    selectRound regs d.sched.ticks sets.read sets.write sets.except d := by
  have hsmall : ¬ regs.arg0 > 32 := BitVec.not_lt.mpr h.nfds
  rw [sysSelect, startSelect, if_neg hsmall, h.read, h.write, h.except]
  rfl

theorem sysSelect_closed (h : SelectArgs regs d sets) (hclosed : ¬ sets.AllOpen regs.arg0 d.tty) :
    sysSelect regs d = (.inl (syscallFailure .ebadf), d) := by
  have hle : 0 + regs.arg0.toNat ≤ 32 := by
    have hnfds : regs.arg0.toNat ≤ 32 := h.nfds
    omega
  have hbad : ∃ j, 0 ≤ j ∧ j < 0 + regs.arg0.toNat ∧ sets.watches j = true ∧
      fdIsValid (BitVec.ofNat 32 j) d.tty = false := by
    simp only [FdSets.AllOpen, not_forall] at hclosed
    obtain ⟨j, hj, hwatched, hfree⟩ := hclosed
    exact ⟨j, Nat.zero_le j, by omega, hwatched, Bool.eq_false_iff.mpr hfree⟩
  have hscan : selectScan sets.read sets.write sets.except d.tty regs.arg0.toNat 0 ⟨0, 0, false⟩ =
      none := selectScan_none hle hbad
  rw [sysSelect_round h, selectRound, hscan]

theorem sysSelect_open (h : SelectArgs regs d sets) (hopen : sets.AllOpen regs.arg0 d.tty) :
    ∃ r outRead outWrite, sysSelect regs d =
        (.inl ⟨r, .ok⟩, d.setMemory (storeSets regs outRead outWrite d.memory)) ∧
      r.toNat = setBits outRead + setBits outWrite ∧
      ReadyBits sets.read regs.arg0 (fdReadReady · d.tty) outRead ∧
      ReadyBits sets.write regs.arg0 (fdWriteReady · d.tty) outWrite := by
  have hle : 0 + regs.arg0.toNat ≤ 32 := by
    have hnfds : regs.arg0.toNat ≤ 32 := h.nfds
    omega
  obtain ⟨out, hrun, hread, hwrite⟩ : ∃ out, selectScan sets.read sets.write sets.except d.tty
      regs.arg0.toNat (BitVec.ofNat 32 0) ⟨0, 0, false⟩ = some out ∧ _ :=
    selectScan_some hle fun j _ hlt => hopen j (by omega)
  have hscan : selectScan sets.read sets.write sets.except d.tty regs.arg0.toNat 0 ⟨0, 0, false⟩ =
      some out := hrun
  refine ⟨countBitsU32 out.outRead + countBitsU32 out.outWrite + countBitsU32 0, out.outRead,
    out.outWrite, ?_, ?_, fun i => ?_, fun i => ?_⟩
  · rw [sysSelect_round h, selectRound, hscan]
    dsimp only
    rw [writeSets_of_readSet h.read h.write h.except]
    dsimp only
    rw [readyOrWait, h.timeout]
    by_cases hready : countBitsU32 out.outRead + countBitsU32 out.outWrite + countBitsU32 0 ≠ 0
    · rw [if_pos hready]
    · rw [if_neg hready, if_pos rfl, not_not.mp hready]
  · have hread := setBits_le out.outRead
    have hwrite := setBits_le out.outWrite
    have hzero : (countBitsU32 0).toNat = 0 := rfl
    rw [BitVec.toNat_add, BitVec.toNat_add, countBitsU32_toNat, countBitsU32_toNat, hzero]
    omega
  · rw [hread]
    simp
  · rw [hwrite]
    simp

end Select

/-! ## The two answers -/

/-- An entry of a poll that does not wait, in an array in any memory. -/
structure PollEntry where
  fdsAddr : BitVec 32
  nfds : BitVec 32
  entry : ℕ
  memory : Bytes

/-- The poll has valid arguments, and the entry asks for an event of a descriptor. -/
structure PollEntry.Asks (q : PollEntry) (fd : BitVec 32) (event : BitVec 16) : Prop where
  addr : q.fdsAddr ≠ 0
  range : q.fdsAddr.toNat + pollfdSize * q.nfds.toNat ≤ kernelMemSize.toNat
  entry : q.entry < q.nfds.toNat
  fd : (pollfdAt q.memory q.fdsAddr.toNat q.entry).fd = fd
  events : (pollfdAt q.memory q.fdsAddr.toNat q.entry).events = event

/-- The poll succeeds and returns the event in the entry. -/
def PollEntry.Reports (q : PollEntry) (t : Tty) (event : BitVec 16) : Prop :=
  ∃ r polled, sysPoll q.fdsAddr q.nfds 0 ⟨t, q.memory⟩ = (some ⟨r, .ok⟩, polled) ∧
    (pollfdAt polled.memory q.fdsAddr.toNat q.entry).revents &&& event ≠ 0

section Poll

variable {q : PollEntry} {t : Tty} {fd : BitVec 32} {event : BitVec 16} {i : ℕ}

theorem PollEntry.Asks.reports_iff (h : q.Asks fd event) :
    q.Reports t event ↔ pollRevents (pollfdAt q.memory q.fdsAddr.toNat q.entry) t &&& event ≠ 0 := by
  have hnfds : q.nfds ≠ 0 := by
    intro hzero
    have hentry := h.entry
    rw [hzero] at hentry
    exact absurd hentry (Nat.not_lt_zero _)
  obtain ⟨r, memory, hpoll, hentries⟩ := sysPoll_spec ⟨t, q.memory⟩ h.addr hnfds h.range
  have hrevents : (pollfdAt memory q.fdsAddr.toNat q.entry).revents =
      pollRevents (pollfdAt q.memory q.fdsAddr.toNat q.entry) t := by
    rw [hentries q.entry h.entry, Pollfd.visited_revents]
  rw [← hrevents]
  constructor
  · rintro ⟨r', polled, hrun, hevent⟩
    rw [hpoll] at hrun
    obtain ⟨-, rfl⟩ := Prod.mk.inj hrun
    exact hevent
  · exact fun hevent => ⟨r, _, hpoll, hevent⟩

theorem toInt_descriptor (hi : i < 32) : 0 ≤ (BitVec.ofNat 32 i).toInt := by
  rw [BitVec.toInt_eq_toNat_cond, BitVec.toNat_ofNat, Nat.mod_eq_of_lt (by omega),
    if_pos (by omega)]
  exact Int.natCast_nonneg _

/-- A poll for `POLLIN` of an open descriptor. -/
theorem PollEntry.Asks.pollin_iff (h : q.Asks fd sysPollin) (hfd : 0 ≤ fd.toInt)
    (hopen : fdIsValid fd t = true) : q.Reports t sysPollin ↔ fdReadReady fd t = true := by
  rw [h.reports_iff, pollRevents, h.fd, h.events, if_neg (not_lt.mpr hfd),
    if_neg (not_not.mpr hopen)]
  cases fdReadReady fd t <;> cases fdWriteReady fd t <;> decide

/-- A poll for `POLLOUT` of an open descriptor. -/
theorem PollEntry.Asks.pollout_iff (h : q.Asks fd sysPollout) (hfd : 0 ≤ fd.toInt)
    (hopen : fdIsValid fd t = true) : q.Reports t sysPollout ↔ fdWriteReady fd t = true := by
  rw [h.reports_iff, pollRevents, h.fd, h.events, if_neg (not_lt.mpr hfd),
    if_neg (not_not.mpr hopen)]
  cases fdReadReady fd t <;> cases fdWriteReady fd t <;> decide

end Poll

/-- The sets that a call stores: each has the bits that were set, belong to descriptors below
`nfds`, and are reported by a poll for the event. -/
structure SelectAgrees (regs : SyscallRegs) (sets : FdSets) (t : Tty) (outRead outWrite : BitVec 32)
    (memory : Bytes) : Prop where
  read : ∀ (i : ℕ) (q : PollEntry), q.Asks (BitVec.ofNat 32 i) sysPollin →
    (outRead.getLsbD i = true ↔
      sets.read.getLsbD i = true ∧ i < regs.arg0.toNat ∧ q.Reports t sysPollin)
  write : ∀ (i : ℕ) (q : PollEntry), q.Asks (BitVec.ofNat 32 i) sysPollout →
    (outWrite.getLsbD i = true ↔
      sets.write.getLsbD i = true ∧ i < regs.arg0.toNat ∧ q.Reports t sysPollout)
  subset : outRead &&& ~~~sets.read = 0 ∧ outWrite &&& ~~~sets.write = 0
  /-- Sets that do not overlap are found in memory. -/
  stored : SetsApart regs.arg1 regs.arg2 → SetsApart regs.arg1 regs.arg3 →
    SetsApart regs.arg2 regs.arg3 → readSet regs.arg1 memory = some outRead ∧
      readSet regs.arg2 memory = some outWrite ∧ readSet regs.arg3 memory = some 0

section Agree

variable {regs : SyscallRegs} {d : KernelData} {sets : FdSets} {watched out : BitVec 32}
  {ready : BitVec 32 → Bool} {nfds : BitVec 32}

theorem ReadyBits.subset (h : ReadyBits watched nfds ready out) : out &&& ~~~watched = 0 := by
  apply BitVec.eq_of_getLsbD_eq
  intro i hi
  rw [BitVec.getLsbD_and, BitVec.getLsbD_not, h i]
  cases watched.getLsbD i <;> simp

/-- Nothing is ready in an empty set. -/
theorem ReadyBits.eq_zero (h : ReadyBits 0 nfds ready out) : out = 0 := by
  have hall : out &&& ~~~0#32 = 0 := h.subset
  rwa [BitVec.not_zero, BitVec.and_allOnes] at hall

theorem readSet_zero {addr v : BitVec 32} {memory : Bytes} (h : readSet addr memory = some v)
    (hnull : addr = 0) : v = 0 := by
  rw [hnull, readSet, if_neg (not_not.mpr rfl)] at h
  exact (Option.some.inj h).symm

/-- For all descriptor tables, consoles and sets: if every watched descriptor is open, a call
without a timeout agrees with polls of the descriptors, returns the number of bits that it
stores, and clears the third set. If one is not, the call fails and stores nothing. -/
theorem select_agrees_with_poll (h : SelectArgs regs d sets) :
    (sets.AllOpen regs.arg0 d.tty → ∃ r outRead outWrite, sysSelect regs d =
        (.inl ⟨r, .ok⟩, d.setMemory (storeSets regs outRead outWrite d.memory)) ∧
      r.toNat = setBits outRead + setBits outWrite ∧
      SelectAgrees regs sets d.tty outRead outWrite (storeSets regs outRead outWrite d.memory)) ∧
    (¬ sets.AllOpen regs.arg0 d.tty → sysSelect regs d = (.inl (syscallFailure .ebadf), d)) := by
  refine ⟨fun hopen => ?_, sysSelect_closed h⟩
  obtain ⟨r, outRead, outWrite, hrun, hret, hread, hwrite⟩ := sysSelect_open h hopen
  have hnfds : regs.arg0.toNat ≤ 32 := h.nfds
  refine ⟨r, outRead, outWrite, hrun, hret, fun i q hq => ?_, fun i q hq => ?_,
    ⟨hread.subset, hwrite.subset⟩, fun h12 h13 h23 => ⟨?_, ?_, ?_⟩⟩
  · rw [hread, Bool.and_eq_true, Bool.and_eq_true, decide_eq_true_iff]
    by_cases hwatched : i < regs.arg0.toNat ∧ sets.read.getLsbD i = true
    · have hvalid := hopen i hwatched.1 (by rw [FdSets.watches, hwatched.2]; rfl)
      rw [hq.pollin_iff (toInt_descriptor (by omega)) hvalid]
      tauto
    · tauto
  · rw [hwrite, Bool.and_eq_true, Bool.and_eq_true, decide_eq_true_iff]
    by_cases hwatched : i < regs.arg0.toNat ∧ sets.write.getLsbD i = true
    · have hvalid := hopen i hwatched.1 (by rw [FdSets.watches, hwatched.2, Bool.or_true]; rfl)
      rw [hq.pollout_iff (toInt_descriptor (by omega)) hvalid]
      tauto
    · tauto
  · rw [storeSets, readSet_storeSet_of_apart h13, readSet_storeSet_of_apart h12]
    refine readSet_storeSet h.read (fun hnull => ?_) _
    rw [readSet_zero h.read hnull] at hread
    exact hread.eq_zero
  · rw [storeSets, readSet_storeSet_of_apart h23]
    refine readSet_storeSet h.write (fun hnull => ?_) _
    rw [readSet_zero h.write hnull] at hwrite
    exact hwrite.eq_zero
  · exact readSet_storeSet h.except (fun _ => rfl) _

end Agree

/-- The first task watches its standard input, with the set at `0x1000`. -/
def selectStdin : SyscallRegs := ⟨9, 1, 0x1000, 0, 0, 0, 0⟩

/-- A line has been typed. -/
def selectLine : KernelData where
  tty := (stdinTyped asciiLf).tty
  memory a := if a = 0x1000 then 1 else 0
  realtimeOffset := ⟨false, 0⟩

theorem select_agrees_with_poll_line : ∃ r outRead outWrite, sysSelect selectStdin selectLine =
      (.inl ⟨r, .ok⟩,
        selectLine.setMemory (storeSets selectStdin outRead outWrite selectLine.memory)) ∧
    r.toNat = setBits outRead + setBits outWrite ∧
    SelectAgrees selectStdin ⟨1, 0, 0⟩ selectLine.tty outRead outWrite
      (storeSets selectStdin outRead outWrite selectLine.memory) := by
  have hargs : SelectArgs selectStdin selectLine ⟨1, 0, 0⟩ :=
    ⟨by decide, by decide, by decide, by decide, by decide⟩
  refine (select_agrees_with_poll hargs).1 fun i hi hwatched => ?_
  obtain rfl : i = 0 := Nat.lt_one_iff.mp hi
  have hfds : selectLine.tty.fds = _ := stdinTyped_fds rfl
  rw [fdIsValid, hfds]
  decide

end LampVm
