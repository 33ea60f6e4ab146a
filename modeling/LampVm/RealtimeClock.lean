import LampVm.Dispatch
import LampVm.Readiness

/-!
# Setting the real time

The offset of the real time is a sign and a magnitude and is applied with saturation. It
shows exactly the time that was set and counts on from there with the device: the
difference can only saturate where the seconds no longer fit 32 bits, and there the calls
fail anyway.
-/
namespace LampVm

open ByteOrder Transition

/-! ## Arithmetic -/

/-- Nanoseconds of a time in the caller's memory. -/
def Timespec.ns (ts : Timespec) : ℕ := ts.sec.toNat * 1000000000 + ts.nsec.toNat

theorem Timespec.ns_lt {ts : Timespec} (h : ts.valid = true) :
    ts.sec.toNat < 2 ^ 31 ∧ ts.nsec.toNat < 1000000000 := by
  simp only [Timespec.valid, not_or, not_lt, ge_iff_le, not_le, decide_eq_true_eq] at h
  obtain ⟨hsec, hnsec, hlt⟩ := h
  have hsec' := ts.sec.isLt
  have hnsec' := ts.nsec.isLt
  rw [BitVec.toInt_eq_toNat_cond] at hsec hnsec hlt
  split_ifs at hsec hnsec hlt <;> omega

theorem timespecToNs_toNat {ts : Timespec} {ns : BitVec 64} (h : timespecToNs ts = some ns) :
    ns.toNat = ts.ns := by
  unfold timespecToNs at h
  split_ifs at h with hvalid
  obtain ⟨hsec, hnsec⟩ := ts.ns_lt hvalid
  have hns : nsPerSec.toNat = 1000000000 := rfl
  rw [← Option.some.inj h, BitVec.toNat_add, BitVec.toNat_mul, BitVec.toNat_setWidth,
    BitVec.toNat_setWidth, hns, Timespec.ns]
  omega

/-- From a reading at which the offset was computed on, the device and the real time go on
together, up to the largest 64-bit number. -/
theorem apply_realtimeOffsetTo {target r₀ r₁ : BitVec 64} (hle : r₀ ≤ r₁) :
    (clockApplyRealtimeOffset (realtimeOffsetTo target r₀) r₁).toNat =
      min (target.toNat + (r₁.toNat - r₀.toNat)) (2 ^ 64 - 1) := by
  have hle' : r₀.toNat ≤ r₁.toNat := hle
  have hlt := r₁.isLt
  have hmax : (~~~0 : BitVec 64).toNat = 2 ^ 64 - 1 := by decide
  unfold realtimeOffsetTo
  by_cases hforward : target ≥ r₀
  · have hforward' : r₀.toNat ≤ target.toNat := hforward
    have hmag : (target - r₀).toNat = target.toNat - r₀.toNat :=
      BitVec.toNat_sub_of_le hforward
    have hroom : (~~~0 - (target - r₀)).toNat = 2 ^ 64 - 1 - (target.toNat - r₀.toNat) := by
      rw [BitVec.toNat_sub_of_le, hmax, hmag]
      rw [BitVec.le_def, hmax]
      exact Nat.le_sub_one_of_lt (target - r₀).isLt
    rw [if_pos hforward]
    unfold clockApplyRealtimeOffset
    rw [if_pos rfl]
    dsimp only
    by_cases hbig : r₁ > ~~~0 - (target - r₀)
    · have hbig' : (~~~0 - (target - r₀)).toNat < r₁.toNat := hbig
      rw [if_pos hbig, hmax]
      omega
    · have hsmall : r₁.toNat ≤ (~~~0 - (target - r₀)).toNat := not_lt.mp hbig
      rw [if_neg hbig, BitVec.toNat_add_of_lt (by omega), hmag]
      omega
  · have hback : target.toNat < r₀.toNat := not_le.mp hforward
    have hmag : (r₀ - target).toNat = r₀.toNat - target.toNat :=
      BitVec.toNat_sub_of_le (le_of_lt hback)
    rw [if_neg hforward]
    unfold clockApplyRealtimeOffset
    rw [if_neg (by simp)]
    dsimp only
    by_cases hzero : r₁ ≤ r₀ - target
    · have hzero' : r₁.toNat ≤ (r₀ - target).toNat := hzero
      rw [if_pos hzero]
      change 0 = _
      omega
    · have hpos : (r₀ - target).toNat < r₁.toNat := not_le.mp hzero
      rw [if_neg hzero, BitVec.toNat_sub_of_le (le_of_lt hpos), hmag]
      omega

section Conversion

variable {ns : BitVec 64} {n : ℕ}

/-- The seconds do not fit 32 bits before the nanoseconds fail to fit 64. -/
theorem sec_gt_iff (hns : ns.toNat = min n (2 ^ 64 - 1)) :
    ns / nsPerSec > 0x7FFFFFFF ↔ 2 ^ 31 - 1 < n / 1000000000 := by
  have hlt : (0x7FFFFFFF : BitVec 64).toNat = 2 ^ 31 - 1 := by decide
  have hsec : (ns / nsPerSec).toNat = ns.toNat / 1000000000 := rfl
  rw [gt_iff_lt, BitVec.lt_def, hlt, hsec, hns]
  omega

theorem timeNsToTimespec_of_gt (hns : ns.toNat = min n (2 ^ 64 - 1))
    (hgt : 2 ^ 31 - 1 < n / 1000000000) : timeNsToTimespec ns = none :=
  if_pos ((sec_gt_iff hns).mpr hgt)

theorem timeNsToTimespec_of_le (hns : ns.toNat = min n (2 ^ 64 - 1))
    (hle : n / 1000000000 ≤ 2 ^ 31 - 1) : ∃ ts, timeNsToTimespec ns = some ts ∧
      ts.sec.toNat = n / 1000000000 ∧ ts.nsec.toNat = n % 1000000000 := by
  have hn : ns.toNat = n := by omega
  have hper : nsPerSec.toNat = 1000000000 := rfl
  refine ⟨_, if_neg (mt (sec_gt_iff hns).mp (not_lt.mpr hle)), ?_, ?_⟩
  · rw [BitVec.toNat_setWidth, BitVec.toNat_udiv, hper, hn]
    omega
  · rw [BitVec.toNat_setWidth, BitVec.toNat_umod, hper, hn]
    omega

theorem timeNsToTimeval_of_gt (hns : ns.toNat = min n (2 ^ 64 - 1))
    (hgt : 2 ^ 31 - 1 < n / 1000000000) : timeNsToTimeval ns = none :=
  if_pos ((sec_gt_iff hns).mpr hgt)

theorem timeNsToTimeval_of_le (hns : ns.toNat = min n (2 ^ 64 - 1))
    (hle : n / 1000000000 ≤ 2 ^ 31 - 1) : ∃ tv, timeNsToTimeval ns = some tv ∧
      tv.sec.toNat = n / 1000000000 ∧ tv.usec.toNat = n % 1000000000 / 1000 := by
  have hn : ns.toNat = n := by omega
  have hper : nsPerSec.toNat = 1000000000 := rfl
  have hus : nsPerUs.toNat = 1000 := rfl
  refine ⟨_, if_neg (mt (sec_gt_iff hns).mp (not_lt.mpr hle)), ?_, ?_⟩
  · rw [BitVec.toNat_setWidth, BitVec.toNat_udiv, hper, hn]
    omega
  · rw [BitVec.toNat_setWidth, BitVec.toNat_udiv, BitVec.toNat_umod, hper, hus, hn]
    omega

end Conversion

/-! ## What the calls store -/

/-- The two words that a call stored at `addr`. -/
structure StoredPair (memory : Bytes) (addr : BitVec 32) (first second : ℕ) : Prop where
  first : leNat memory addr.toNat 4 = first
  second : leNat memory (addr.toNat + 4) 4 = second

theorem abiUserWritePair_stored {addr first second : BitVec 32} (h : abiPtrRangeOk addr 8 = true)
    (memory : Bytes) : ∃ memory', abiUserWritePair addr first second memory = some memory' ∧
      StoredPair memory' addr first.toNat second.toNat := by
  obtain ⟨-, -, hle⟩ := abiPtrRangeOk_iff.mp h
  have height : (8 : BitVec 32).toNat = 8 := rfl
  have hsize : kernelMemSize.toNat = 0x04000000 := rfl
  have hpow : 256 ^ 4 = 2 ^ 32 := by norm_num
  have hnext : (addr + 4).toNat = addr.toNat + 4 :=
    BitVec.toNat_add_of_lt (by change addr.toNat + 4 < _; omega)
  refine ⟨_, if_neg (not_not.mpr h), ⟨?_, ?_⟩⟩
  · rw [hnext, leNat_leStore_of_disjoint (.inl le_rfl), leNat_leStore, hpow,
      Nat.mod_eq_of_lt first.isLt]
  · rw [hnext, leNat_leStore, hpow, Nat.mod_eq_of_lt second.isLt]

theorem abiPtrRangeOk_ne_zero {addr len : BitVec 32} (h : abiPtrRangeOk addr len = true) :
    addr ≠ 0 := (abiPtrRangeOk_iff.mp h).1

/-- What the calls for the real time do when it is `n` nanoseconds. -/
structure ShowsTime (offset : RealtimeOffset) (raw : RawClocks) (n : ℕ) : Prop where
  gettime : n / 1000000000 ≤ 2 ^ 31 - 1 → ∀ addr memory, abiPtrRangeOk addr 8 = true →
    (sysClockGettime offset raw 0 addr memory).1 = ⟨0, .ok⟩ ∧
      StoredPair (sysClockGettime offset raw 0 addr memory).2 addr (n / 1000000000) (n % 1000000000)
  gettimeofday : n / 1000000000 ≤ 2 ^ 31 - 1 → ∀ addr tzAddr memory, abiPtrRangeOk addr 8 = true →
    ∃ memory', StoredPair memory' addr (n / 1000000000) (n % 1000000000 / 1000) ∧
      sysGettimeofday offset raw addr tzAddr memory = gettimeofdayZone tzAddr memory'
  overflow : ∀ addr memory, addr ≠ 0 →
    ((sysClockGettime offset raw 0 addr memory).1.err = .eoverflow ↔
      2 ^ 31 - 1 < n / 1000000000) ∧
    ∀ tzAddr, (sysGettimeofday offset raw addr tzAddr memory).1.err = .eoverflow ↔
      2 ^ 31 - 1 < n / 1000000000

theorem storeResult_ne_eoverflow (stored : Option Bytes) (memory : Bytes) :
    (storeResult stored memory).1.err ≠ .eoverflow := by
  unfold storeResult
  split
  · exact Errno.noConfusion
  · exact Errno.noConfusion

theorem gettimeofdayZone_ne_eoverflow (tzAddr : BitVec 32) (memory : Bytes) :
    (gettimeofdayZone tzAddr memory).1.err ≠ .eoverflow := by
  unfold gettimeofdayZone
  split_ifs
  · split
    · exact Errno.noConfusion
    · exact storeResult_ne_eoverflow _ _
  · exact Errno.noConfusion

theorem showsTime_of_apply {offset : RealtimeOffset} {raw : RawClocks} {n : ℕ}
    (h : (clockApplyRealtimeOffset offset raw.realtime).toNat = min n (2 ^ 64 - 1)) :
    ShowsTime offset raw n := by
  have hread : clockidReadTimeNs offset raw 0 =
      some (clockApplyRealtimeOffset offset raw.realtime) := rfl
  refine ⟨fun hle addr memory haddr => ?_, fun hle addr tzAddr memory haddr => ?_,
    fun addr memory haddr => ⟨?_, fun tzAddr => ?_⟩⟩
  · obtain ⟨ts, hts, hsec, hnsec⟩ := timeNsToTimespec_of_le h hle
    obtain ⟨memory', hwrite, hstored⟩ := abiUserWritePair_stored haddr memory
    have hcall : sysClockGettime offset raw 0 addr memory = (⟨0, .ok⟩, memory') := by
      unfold sysClockGettime
      rw [if_neg (abiPtrRangeOk_ne_zero haddr), hread]
      dsimp only
      rw [hts]
      dsimp only
      rw [abiUserWriteTimespec, hwrite]
      rfl
    rw [hcall, ← hsec, ← hnsec]
    exact ⟨rfl, hstored⟩
  · obtain ⟨tv, htv, hsec, husec⟩ := timeNsToTimeval_of_le h hle
    obtain ⟨memory', hwrite, hstored⟩ := abiUserWritePair_stored haddr memory
    refine ⟨memory', by rw [← hsec, ← husec]; exact hstored, ?_⟩
    unfold sysGettimeofday
    rw [if_neg (abiPtrRangeOk_ne_zero haddr), htv]
    dsimp only
    rw [abiUserWriteTimeval, hwrite]
  · unfold sysClockGettime
    rw [if_neg haddr, hread]
    dsimp only
    by_cases hgt : 2 ^ 31 - 1 < n / 1000000000
    · rw [timeNsToTimespec_of_gt h hgt]
      exact iff_of_true rfl hgt
    · obtain ⟨ts, hts, -, -⟩ := timeNsToTimespec_of_le h (not_lt.mp hgt)
      rw [hts]
      exact iff_of_false (storeResult_ne_eoverflow _ _) hgt
  · unfold sysGettimeofday
    rw [if_neg haddr]
    by_cases hgt : 2 ^ 31 - 1 < n / 1000000000
    · rw [timeNsToTimeval_of_gt h hgt]
      exact iff_of_true rfl hgt
    · obtain ⟨tv, htv, -, -⟩ := timeNsToTimeval_of_le h (not_lt.mp hgt)
      rw [htv]
      refine iff_of_false ?_ hgt
      dsimp only
      split
      · exact Errno.noConfusion
      · exact gettimeofdayZone_ne_eoverflow _ _

/-! ## Calls that leave the offset alone -/

section Offset

variable {d : KernelData} {raw : RawClocks} {regs : SyscallRegs} {s : CallState}

theorem nanosleep_offset (reqAddr remAddr : BitVec 32) (d : KernelData) :
    (sysNanosleep reqAddr remAddr d).2.realtimeOffset = d.realtimeOffset := by
  unfold sysNanosleep
  split
  · rfl
  · rename_i req _
    by_cases hvalid : req.valid = true
    · rw [if_neg (not_not.mpr hvalid)]
      split
      · rfl
      · dsimp only
        split_ifs <;> rfl
    · rw [if_pos hvalid]

theorem write_offset (fd bufAddr len : BitVec 32) (d : KernelData) :
    (sysWrite fd bufAddr len d).2.realtimeOffset = d.realtimeOffset := by
  unfold sysWrite
  dsimp only
  split_ifs <;> rfl

theorem open_offset (pathAddr flags : BitVec 32) (d : KernelData) :
    (sysOpen pathAddr flags d).2.realtimeOffset = d.realtimeOffset := by
  unfold sysOpen
  dsimp only
  split_ifs
  · rfl
  · rfl
  · split
    · rfl
    · split <;> rfl
  · rfl

theorem socket_offset (domain type : BitVec 32) (d : KernelData) :
    (sysSocket domain type d).2.realtimeOffset = d.realtimeOffset := by
  unfold sysSocket
  dsimp only
  split_ifs <;> rfl

theorem fcntl_offset (fd cmd arg : BitVec 32) (d : KernelData) :
    (sysFcntl fd cmd arg d).2.realtimeOffset = d.realtimeOffset := by
  unfold sysFcntl
  split_ifs <;> rfl

theorem ttySetmode_offset (fd lflag : BitVec 32) (d : KernelData) :
    (sysTtySetmode fd lflag d).2.realtimeOffset = d.realtimeOffset := by
  unfold sysTtySetmode
  split_ifs <;> rfl

theorem readyOrWait_offset (ready timeoutMs startTick : BitVec 32) (waitReadStdin : Bool)
    (next : Waiting) (d : KernelData) :
    (readyOrWait ready timeoutMs startTick waitReadStdin next d).2.realtimeOffset =
      d.realtimeOffset := by
  unfold readyOrWait
  dsimp only
  split_ifs <;> rfl

theorem round_offset (place : Waiting) (regs : SyscallRegs) (d : KernelData) :
    (place.round regs d).2.realtimeOffset = d.realtimeOffset := by
  cases place with
  | waitpid status =>
    change (waitpidRound regs status d).2.realtimeOffset = _
    unfold waitpidRound
    split <;> rfl
  | sleep startTick =>
    change (sleepRound regs.arg2 startTick d).2.realtimeOffset = _
    unfold sleepRound
    dsimp only
    split_ifs <;> rfl
  | poll startTick =>
    change (pollRound regs.arg0 regs.arg1 regs.arg2 startTick d).2.realtimeOffset = _
    unfold pollRound
    split
    · rfl
    · exact readyOrWait_offset _ _ _ _ _ (d.setMemory _)
  | select startTick inRead inWrite inExcept =>
    change (selectRound regs startTick inRead inWrite inExcept d).2.realtimeOffset = _
    unfold selectRound
    split
    · rfl
    · split
      · rfl
      · exact readyOrWait_offset _ _ _ _ _ (d.setMemory _)

theorem startCall_offset (hnr : sysOfNr regs.nr ≠ some .clockSettime) :
    (startCall raw regs d).2.realtimeOffset = d.realtimeOffset := by
  unfold startCall
  split
  case h_7 => exact nanosleep_offset _ _ _
  case h_9 => exact write_offset _ _ _ _
  case h_13 => exact ttySetmode_offset _ _ _
  case h_17 => exact absurd ‹_› hnr
  case h_21 => exact fcntl_offset _ _ _ _
  case h_22 => exact open_offset _ _ _
  case h_23 => exact socket_offset _ _ _
  all_goals rfl

theorem startCall_settime (hnr : sysOfNr regs.nr = some .clockSettime) :
    startCall raw regs d =
      (.inl (sysClockSettime raw regs.arg0 regs.arg1 d.memory d.realtimeOffset).1,
        { d with realtimeOffset :=
          (sysClockSettime raw regs.arg0 regs.arg1 d.memory d.realtimeOffset).2 }) := by
  rw [startCall, hnr]

theorem returned_settime (hnr : sysOfNr regs.nr = some .clockSettime) (s : CallState) :
    s.returned (.call raw regs) = some (regs, (sysClockSettime raw regs.arg0 regs.arg1
      s.data.memory s.data.realtimeOffset).1.ret) := by
  simp only [CallState.returned, CallState.round, startCall_settime hnr]

theorem next_settime (hnr : sysOfNr regs.nr = some .clockSettime) (s : CallState) :
    (s.next (.call raw regs)).data.realtimeOffset = (sysClockSettime raw regs.arg0 regs.arg1
      s.data.memory s.data.realtimeOffset).2 := by
  simp only [CallState.next, CallState.round, startCall_settime hnr]
  rfl

/-- A call is accepted with a valid time, and rejected calls leave the offset alone. -/
theorem settime_cases (raw : RawClocks) (clockId tpAddr : BitVec 32) (memory : Bytes)
    (offset : RealtimeOffset) :
    (∃ tp ns, clockId = 0 ∧ abiUserReadTimespec tpAddr memory = some tp ∧
      timespecToNs tp = some ns ∧ sysClockSettime raw clockId tpAddr memory offset =
        (⟨0, .ok⟩, realtimeOffsetTo ns raw.realtime)) ∨
    ((sysClockSettime raw clockId tpAddr memory offset).1.ret = -1 ∧
      (sysClockSettime raw clockId tpAddr memory offset).2 = offset) := by
  unfold sysClockSettime
  split_ifs with hmonotonic hreal hnull
  · exact .inr ⟨rfl, rfl⟩
  · exact .inr ⟨rfl, rfl⟩
  · exact .inr ⟨rfl, rfl⟩
  · split
    · exact .inr ⟨rfl, rfl⟩
    · rename_i tp htp
      split
      · exact .inr ⟨rfl, rfl⟩
      · rename_i ns hns
        exact .inl ⟨tp, ns, not_not.mp hreal, htp, hns, rfl⟩

/-- The step does not set the real time. -/
def KeepsClock (s : CallState) (l : CallLabel) : Prop :=
  ∀ raw regs, l = .call raw regs → sysOfNr regs.nr = some .clockSettime →
    s.returned l ≠ some (regs, 0)

theorem settime_rejected (hnr : sysOfNr regs.nr = some .clockSettime)
    (hret : s.returned (.call raw regs) ≠ some (regs, 0)) :
    (s.next (.call raw regs)).data.realtimeOffset = s.data.realtimeOffset := by
  rw [returned_settime hnr] at hret
  rw [next_settime hnr]
  obtain ⟨tp, ns, -, -, -, hcall⟩ | ⟨-, hkept⟩ := settime_cases raw regs.arg0 regs.arg1
    s.data.memory s.data.realtimeOffset
  · rw [hcall] at hret
    exact absurd rfl hret
  · exact hkept

theorem next_offset_of_round {l : CallLabel} {p : Round × KernelData} {rest : List PendingCall}
    (h : s.round l = some (regs, p, rest)) :
    (s.next l).data.realtimeOffset = p.2.realtimeOffset := by
  obtain ⟨r | place, d⟩ := p
  · simp only [CallState.next, h]
    rfl
  · simp only [CallState.next, h]

theorem next_offset {l : CallLabel} (hl : KeepsClock s l) :
    (s.next l).data.realtimeOffset = s.data.realtimeOffset := by
  cases l with
  | call raw regs =>
    by_cases hnr : sysOfNr regs.nr = some .clockSettime
    · exact settime_rejected hnr (hl raw regs rfl hnr)
    · rw [next_offset_of_round rfl]
      exact startCall_offset hnr
  | nullCall => rfl
  | resume =>
    cases hpending : s.pending with
    | nil =>
      have hround : s.round .resume = none := by simp only [CallState.round, hpending]
      simp only [CallState.next, hround]
    | cons q qs =>
      have hround : s.round .resume = some (q.regs, q.place.round q.regs s.data, qs) := by
        simp only [CallState.round, hpending]
      rw [next_offset_of_round hround]
      exact round_offset q.place q.regs s.data
  | sched op => rfl
  | feed ch => rfl
  | store memory => rfl

theorem run_offset {t : CallState} {ls : List CallLabel}
    (h : Run (syscallRuns.restrict KeepsClock) s ls t) :
    t.data.realtimeOffset = s.data.realtimeOffset := by
  induction h with
  | nil => rfl
  | snoc _ hs ih =>
    obtain ⟨hkeeps, -, rfl⟩ := hs
    rw [next_offset hkeeps, ih]

end Offset

/-! ## The clock -/

/-- After an accepted `SYS_CLOCK_SETTIME`, and as long as the real time is not set again, the
calls show the time that was set and what the device has counted since; the other clocks
do not depend on the offset; and a rejected call leaves the offset as it was. -/
theorem settime_exact {s : CallState} {raw₀ : RawClocks} {regs : SyscallRegs}
    (hnr : sysOfNr regs.nr = some .clockSettime) :
    (s.returned (.call raw₀ regs) = some (regs, 0) →
      ∃ tp, abiUserReadTimespec regs.arg1 s.data.memory = some tp ∧ tp.valid = true ∧
        ∀ ls t, Run (syscallRuns.restrict KeepsClock) (s.next (.call raw₀ regs)) ls t →
          ∀ raw₁ : RawClocks, raw₀.realtime ≤ raw₁.realtime →
            ShowsTime t.data.realtimeOffset raw₁
              (tp.ns + (raw₁.realtime.toNat - raw₀.realtime.toNat))) ∧
    (∀ offset offset' raw₁ clockId addr memory, clockSource clockId ≠ some .realtime →
      sysClockGettime offset raw₁ clockId addr memory =
        sysClockGettime offset' raw₁ clockId addr memory) ∧
    (s.returned (.call raw₀ regs) ≠ some (regs, 0) →
      (s.next (.call raw₀ regs)).data.realtimeOffset = s.data.realtimeOffset) := by
  refine ⟨fun haccepted => ?_, fun offset offset' raw₁ clockId addr memory hclock => ?_,
    settime_rejected hnr⟩
  · rw [returned_settime hnr] at haccepted
    obtain ⟨tp, ns, -, htp, hns, hcall⟩ | ⟨hret, -⟩ := settime_cases raw₀ regs.arg0 regs.arg1
      s.data.memory s.data.realtimeOffset
    · refine ⟨tp, htp, ?_, fun ls t hrun raw₁ hle => ?_⟩
      · unfold timespecToNs at hns
        split_ifs at hns with hvalid
        exact hvalid
      · refine showsTime_of_apply ?_
        rw [run_offset hrun, next_settime hnr, hcall, apply_realtimeOffsetTo hle,
          timespecToNs_toNat hns]
    · rw [hret] at haccepted
      cases (Prod.mk.inj (Option.some.inj haccepted)).2
  · have hread : clockidReadTimeNs offset raw₁ clockId = clockidReadTimeNs offset' raw₁ clockId := by
      unfold clockidReadTimeNs
      cases hsource : clockSource clockId with
      | none => rfl
      | some source =>
        cases source with
        | realtime => exact absurd hsource hclock
        | monotonic => rfl
        | boot => rfl
    unfold sysClockGettime
    rw [hread]

/-- The kernel after boot, with a time of five seconds at address 16. -/
def fiveSeconds : CallState where
  data :=
    { tty := consoleInit ⟨⟨fun _ => 0, 0, 0, 0, 0, 0, 0⟩, schedInit, []⟩
      memory := fun a => if a = 16 then 5 else 0
      realtimeOffset := ⟨false, 0⟩ }
  pending := []

theorem settime_exact_back : ∃ tp, abiUserReadTimespec 16 fiveSeconds.data.memory = some tp ∧
    tp.valid = true ∧ ∀ ls t, Run (syscallRuns.restrict KeepsClock)
      (fiveSeconds.next (.call ⟨7000000000, 0, 0⟩ ⟨15, 0, 16, 0, 0, 0, 0⟩)) ls t →
        ∀ raw₁ : RawClocks, 7000000000 ≤ raw₁.realtime →
          ShowsTime t.data.realtimeOffset raw₁ (tp.ns + (raw₁.realtime.toNat - 7000000000)) := by
  have hnr : sysOfNr (⟨15, 0, 16, 0, 0, 0, 0⟩ : SyscallRegs).nr = some .clockSettime := rfl
  exact (settime_exact hnr).1 (by decide +kernel)

end LampVm
