import LampVm.RealtimeClock

/-!
# Time calls that fail

A call that reads, sets or waits for time and returns `-1` leaves the kernel and the tasks'
memory as they were. `SYS_GETTIMEOFDAY` is the exception: it stores the time before it looks
at the address of the zone, whose two words it also checks one by one.
-/
namespace LampVm

open ByteOrder

def timeCalls : List Sys := [.clockGetres, .clockGettime, .clockSettime, .gettimeofday, .nanosleep]

def InMailbox (x : ℕ) : Prop := syscallAbiAddr ≤ x ∧ x < syscallAbiAddr + 0x30

/-- The same tasks, console and offset, and the same memory but for the mailbox. -/
structure Untouched (d d' : KernelData) : Prop where
  tty : d'.tty = d.tty
  offset : d'.realtimeOffset = d.realtimeOffset
  memory : ∀ x, ¬ InMailbox x → d'.memory x = d.memory x

/-- The bytes of a time, in the order of their addresses. -/
def Timeval.byte (tv : Timeval) (k : ℕ) : BitVec 8 :=
  if k < 4 then BitVec.ofNat 8 (tv.sec.toNat / 256 ^ k)
  else BitVec.ofNat 8 (tv.usec.toNat / 256 ^ (k - 4))

/-- The memory differs from what is stored before the zone is found to be out of range: zeros
in the zone's first word, when this word is in range, and elsewhere the time. -/
def DiffersAt (tvAddr tzAddr : BitVec 32) (tv : Timeval) (memory : Bytes) (x : ℕ) : Prop :=
  if abiPtrRangeOk tzAddr 4 ∧ tzAddr.toNat ≤ x ∧ x < tzAddr.toNat + 4 then memory x ≠ 0
  else tvAddr.toNat ≤ x ∧ x < tvAddr.toNat + 8 ∧ memory x ≠ tv.byte (x - tvAddr.toNat)

/-- The call stores the time and then fails at the zone. -/
structure FailsAtZone (raw : RawClocks) (regs : SyscallRegs) (offset : RealtimeOffset)
    (tv : Timeval) : Prop where
  nr : sysOfNr regs.nr = some .gettimeofday
  time : timeNsToTimeval (clockApplyRealtimeOffset offset raw.realtime) = some tv
  room : abiPtrRangeOk regs.arg0 8 = true
  asked : regs.arg1 ≠ 0
  outside : abiPtrRangeOk regs.arg1 8 = false

/-- The call fails after it has changed a byte outside the mailbox. -/
def StoresAndFails (raw : RawClocks) (regs : SyscallRegs) (d : KernelData) : Prop :=
  ∃ tv, FailsAtZone raw regs d.realtimeOffset tv ∧
    ∃ x, ¬ InMailbox x ∧ DiffersAt regs.arg0 regs.arg1 tv d.memory x

/-! ## Publishing the result -/

section Publish

variable {d d' : KernelData}

theorem abiWrite32_outside {x : ℕ} (hx : ¬ InMailbox x) (memory : Bytes) (field : MailboxField)
    (v : BitVec 32) : abiWrite32 memory field v x = memory x := by
  have hoff : field.off + 4 ≤ 0x30 := by cases field <;> decide
  have hout : x < syscallAbiAddr ∨ syscallAbiAddr + 0x30 ≤ x := by
    rcases Nat.lt_or_ge x syscallAbiAddr with hlt | hge
    · exact .inl hlt
    · exact .inr (Nat.le_of_not_lt fun hlt => hx ⟨hge, hlt⟩)
  exact leStore_of_not_mem (by omega)

/-- The result goes to the mailbox only. -/
theorem publish_untouched (regs : SyscallRegs) (r : SyscallResult) (d : KernelData) :
    Untouched d (syscallPublishResult regs r d) where
  tty := rfl
  offset := rfl
  memory x hx := by
    change (publishedWords regs r d.sched.ticks).foldl (fun m w => abiWrite32 m w.1 w.2)
      d.memory x = d.memory x
    generalize publishedWords regs r d.sched.ticks = words
    generalize d.memory = memory
    induction words generalizing memory with
    | nil => rfl
    | cons w words ih => rw [List.foldl_cons, ih, abiWrite32_outside hx]

end Publish

/-! ## The calls -/

section Calls

variable {raw : RawClocks} {regs : SyscallRegs} {offset : RealtimeOffset} {memory : Bytes}

/-- A call that fails gives back what it was given. -/
def Clean {α : Type*} (p : SyscallResult × α) (a : α) : Prop := p.1.ret = -1 → p.2 = a

theorem clean_failure {α : Type*} (err : Errno) (a : α) : Clean (syscallFailure err, a) a :=
  fun _ => rfl

theorem clean_success {α : Type*} (b a : α) : Clean (⟨0, .ok⟩, b) a := by
  have hne : (0 : BitVec 32) ≠ -1 := by decide
  exact fun hret => absurd hret hne

theorem clean_storeResult (stored : Option Bytes) (memory : Bytes) :
    Clean (storeResult stored memory) memory := by
  cases stored with
  | none => exact clean_failure _ _
  | some m => exact clean_success _ _

theorem clean_clockGetres (clockId resAddr : BitVec 32) (memory : Bytes) :
    Clean (sysClockGetres clockId resAddr memory) memory := by
  unfold sysClockGetres
  split_ifs
  · exact clean_storeResult _ _
  · exact clean_success _ _
  · exact clean_failure _ _

theorem clean_clockGettime (offset : RealtimeOffset) (raw : RawClocks)
    (clockId tsAddr : BitVec 32) (memory : Bytes) :
    Clean (sysClockGettime offset raw clockId tsAddr memory) memory := by
  unfold sysClockGettime
  split_ifs
  · exact clean_failure _ _
  · cases clockidReadTimeNs offset raw clockId with
    | none => exact clean_failure _ _
    | some ns =>
      dsimp only
      cases timeNsToTimespec ns with
      | none => exact clean_failure _ _
      | some ts => exact clean_storeResult _ _

theorem clean_clockSettime (raw : RawClocks) (clockId tpAddr : BitVec 32) (memory : Bytes)
    (offset : RealtimeOffset) : Clean (sysClockSettime raw clockId tpAddr memory offset) offset := by
  obtain ⟨tp, ns, -, -, -, hcall⟩ | ⟨-, hkeep⟩ :=
    settime_cases raw clockId tpAddr memory offset
  · rw [hcall]
    exact clean_success _ _
  · exact fun _ => hkeep

theorem clean_nanosleep (reqAddr remAddr : BitVec 32) (d : KernelData) :
    Clean (sysNanosleep reqAddr remAddr d) d := by
  have hperiod : ¬ schedTickPeriodUs = 0 := by decide
  rw [sysNanosleep]
  cases abiUserReadTimespec reqAddr d.memory with
  | none => exact clean_failure _ _
  | some req =>
    dsimp only
    by_cases hvalid : req.valid = true
    · rw [if_neg (not_not.mpr hvalid)]
      cases abiUserWriteTimespecZero remAddr d.memory with
      | none => exact clean_failure _ _
      | some memory =>
        dsimp only
        rw [if_neg hperiod]
        split_ifs
        · exact clean_success _ _
        · exact clean_success _ _
        · exact clean_success _ _
    · rw [if_pos hvalid]
      exact clean_failure _ _

/-! ### The time of day -/

theorem abiPtrRangeOk_words {addr : BitVec 32} : abiPtrRangeOk addr 8 = true ↔
    abiPtrRangeOk addr 4 = true ∧ abiPtrRangeOk (addr + 4) 4 = true := by
  have hsize : kernelMemSize.toNat = 67108864 := rfl
  have hfour : (4 : BitVec 32).toNat = 4 := rfl
  have height : (8 : BitVec 32).toNat = 8 := rfl
  have hnext : (addr + 4).toNat = (addr.toNat + 4) % 2 ^ 32 := BitVec.toNat_add _ _
  rw [abiPtrRangeOk_iff, abiPtrRangeOk_iff, abiPtrRangeOk_iff, hsize, hfour, height, hnext]
  constructor
  · rintro ⟨hne, -, hle⟩
    refine ⟨⟨hne, by decide, by omega⟩, fun hzero => ?_, by decide, by omega⟩
    rw [hzero] at hnext
    have hnone : (0 : BitVec 32).toNat = 0 := rfl
    omega
  · rintro ⟨⟨hne, -, hle⟩, -, -, hle'⟩
    exact ⟨hne, by decide, by omega⟩

/-- The memory after a failure at the zone. -/
def tornMemory (tvAddr tzAddr : BitVec 32) (tv : Timeval) (memory : Bytes) : Bytes :=
  let memory := leStore (leStore memory tvAddr.toNat 4 tv.sec.toNat) (tvAddr + 4).toNat 4
    tv.usec.toNat
  if abiPtrRangeOk tzAddr 4 then leStore memory tzAddr.toNat 4 0 else memory

theorem storedTime_apply {tvAddr : BitVec 32} (hroom : abiPtrRangeOk tvAddr 8 = true)
    (tv : Timeval) (memory : Bytes) (x : ℕ) :
    leStore (leStore memory tvAddr.toNat 4 tv.sec.toNat) (tvAddr + 4).toNat 4 tv.usec.toNat x =
      if tvAddr.toNat ≤ x ∧ x < tvAddr.toNat + 8 then tv.byte (x - tvAddr.toNat)
      else memory x := by
  obtain ⟨-, -, hle⟩ := abiPtrRangeOk_iff.mp hroom
  have hsize : kernelMemSize.toNat = 67108864 := rfl
  have height : (8 : BitVec 32).toNat = 8 := rfl
  have hnext : (tvAddr + 4).toNat = (tvAddr.toNat + 4) % 2 ^ 32 := BitVec.toNat_add _ _
  rw [hsize, height] at hle
  rw [hnext, Nat.mod_eq_of_lt (by omega), leStore, leStore, Timeval.byte]
  by_cases hlow : tvAddr.toNat ≤ x ∧ x < tvAddr.toNat + 4
  · rw [if_neg (by omega), if_pos hlow, if_pos (by omega), if_pos (by omega)]
  · by_cases hhigh : tvAddr.toNat + 4 ≤ x ∧ x < tvAddr.toNat + 4 + 4
    · rw [if_pos hhigh, if_pos (by omega), if_neg (by omega), Nat.sub_sub]
    · rw [if_neg hhigh, if_neg hlow, if_neg (by omega)]

theorem tornMemory_ne_iff {tvAddr tzAddr : BitVec 32} (hroom : abiPtrRangeOk tvAddr 8 = true)
    (tv : Timeval) (memory : Bytes) (x : ℕ) : tornMemory tvAddr tzAddr tv memory x ≠ memory x ↔
      DiffersAt tvAddr tzAddr tv memory x := by
  have htime := storedTime_apply hroom tv memory x
  have helse : leStore (leStore memory tvAddr.toNat 4 tv.sec.toNat) (tvAddr + 4).toNat 4
      tv.usec.toNat x ≠ memory x ↔
        tvAddr.toNat ≤ x ∧ x < tvAddr.toNat + 8 ∧ memory x ≠ tv.byte (x - tvAddr.toNat) := by
    rw [htime]
    by_cases hin : tvAddr.toNat ≤ x ∧ x < tvAddr.toNat + 8
    · rw [if_pos hin]
      exact ⟨fun hne => ⟨hin.1, hin.2, hne.symm⟩, fun h => h.2.2.symm⟩
    · rw [if_neg hin]
      exact iff_of_false (fun hne => hne rfl) fun h => hin ⟨h.1, h.2.1⟩
  rw [tornMemory, DiffersAt]
  by_cases hzone : abiPtrRangeOk tzAddr 4 = true
  · rw [if_pos hzone, leStore]
    by_cases hin : tzAddr.toNat ≤ x ∧ x < tzAddr.toNat + 4
    · rw [if_pos hin, if_pos ⟨hzone, hin⟩, Nat.zero_div]
      exact ne_comm
    · rw [if_neg hin, if_neg fun h => hin h.2]
      exact helse
  · rw [if_neg hzone, if_neg fun h => hzone h.1]
    exact helse

theorem gettimeofdayZone_cases (tzAddr : BitVec 32) (memory : Bytes) :
    ((tzAddr = 0 ∨ abiPtrRangeOk tzAddr 8 = true) ∧
      (gettimeofdayZone tzAddr memory).1 = ⟨0, .ok⟩) ∨
    (tzAddr ≠ 0 ∧ abiPtrRangeOk tzAddr 8 = false ∧ gettimeofdayZone tzAddr memory =
      (syscallFailure .efault,
        if abiPtrRangeOk tzAddr 4 then leStore memory tzAddr.toNat 4 0 else memory)) := by
  rw [gettimeofdayZone]
  by_cases hasked : tzAddr ≠ 0
  · rw [if_pos hasked, abiUserWrite32]
    by_cases hfirst : abiPtrRangeOk tzAddr 4 = true
    · rw [if_pos hfirst, if_pos hfirst]
      dsimp only
      rw [abiUserWrite32]
      by_cases hsecond : abiPtrRangeOk (tzAddr + 4) 4 = true
      · rw [if_pos hsecond]
        exact .inl ⟨.inr (abiPtrRangeOk_words.mpr ⟨hfirst, hsecond⟩), rfl⟩
      · rw [if_neg hsecond]
        refine .inr ⟨hasked, Bool.eq_false_iff.mpr fun h => ?_, rfl⟩
        exact hsecond (abiPtrRangeOk_words.mp h).2
    · rw [if_neg hfirst, if_neg hfirst]
      refine .inr ⟨hasked, Bool.eq_false_iff.mpr fun h => ?_, rfl⟩
      exact hfirst (abiPtrRangeOk_words.mp h).1
  · rw [if_neg hasked]
    exact .inl ⟨.inl (not_not.mp hasked), rfl⟩

/-- `SYS_GETTIMEOFDAY` fails before its first store, succeeds, or fails at the zone. -/
theorem sysGettimeofday_cases (hnr : sysOfNr regs.nr = some .gettimeofday)
    (offset : RealtimeOffset) (raw : RawClocks) (memory : Bytes) :
    (Clean (sysGettimeofday offset raw regs.arg0 regs.arg1 memory) memory ∧
      ∀ tv, ¬ FailsAtZone raw regs offset tv) ∨
    ∃ tv, FailsAtZone raw regs offset tv ∧ sysGettimeofday offset raw regs.arg0 regs.arg1 memory =
      (syscallFailure .efault, tornMemory regs.arg0 regs.arg1 tv memory) := by
  rw [sysGettimeofday]
  by_cases hnull : regs.arg0 = 0
  · rw [if_pos hnull]
    exact .inl ⟨clean_failure _ _, fun tv h => (abiPtrRangeOk_iff.mp h.room).1 hnull⟩
  · rw [if_neg hnull]
    cases htime : timeNsToTimeval (clockApplyRealtimeOffset offset raw.realtime) with
    | none =>
      refine .inl ⟨clean_failure _ _, fun tv h => ?_⟩
      exact Option.some_ne_none tv (h.time.symm.trans htime)
    | some tv =>
      dsimp only
      rw [abiUserWriteTimeval, abiUserWritePair]
      by_cases hroom : abiPtrRangeOk regs.arg0 8 = true
      · rw [if_neg (not_not.mpr hroom)]
        dsimp only
        obtain ⟨hzone, hok⟩ | ⟨hasked, houtside, hcall⟩ := gettimeofdayZone_cases regs.arg1
          (leStore (leStore memory regs.arg0.toNat 4 tv.sec.toNat) (regs.arg0 + 4).toNat 4
            tv.usec.toNat)
        · refine .inl ⟨fun hret => ?_, fun tv' h => ?_⟩
          · rw [hok] at hret
            exact absurd hret (by decide)
          · rcases hzone with hzone | hzone
            · exact h.asked hzone
            · exact Bool.false_ne_true (h.outside.symm.trans hzone)
        · exact .inr ⟨tv, ⟨hnr, htime, hroom, hasked, houtside⟩, hcall⟩
      · rw [if_pos hroom]
        exact .inl ⟨clean_failure _ _, fun tv' h => hroom h.room⟩

end Calls

/-! ## All or nothing -/

section Dispatch

variable {raw : RawClocks} {regs : SyscallRegs} {s : CallState} {r : SyscallResult}
  {d : KernelData}

theorem call_next (h : startCall raw regs s.data = (.inl r, d)) :
    s.returned (.call raw regs) = some (regs, r.ret) ∧
      (s.next (.call raw regs)).data = syscallPublishResult regs r d := by
  have hround : s.round (.call raw regs) = some (regs, (.inl r, d), s.pending) := by
    rw [CallState.round, h]
  rw [CallState.returned, CallState.next, hround]
  exact ⟨rfl, rfl⟩

theorem startCall_clean {c : Sys} (hnr : sysOfNr regs.nr = some c) (htime : c ∈ timeCalls)
    (hday : c ≠ .gettimeofday) (raw : RawClocks) (d : KernelData) :
    ∃ r d', startCall raw regs d = (.inl r, d') ∧ Clean (r, d') d := by
  simp only [timeCalls, List.mem_cons, List.not_mem_nil, or_false] at htime
  rcases htime with rfl | rfl | rfl | rfl | rfl
  · refine ⟨_, d.setMemory (sysClockGetres regs.arg0 regs.arg1 d.memory).2,
      by rw [startCall, hnr], fun hret => ?_⟩
    exact congrArg d.setMemory (clean_clockGetres _ _ _ hret)
  · refine ⟨_, d.setMemory (sysClockGettime d.realtimeOffset raw regs.arg0 regs.arg1 d.memory).2,
      by rw [startCall, hnr], fun hret => ?_⟩
    exact congrArg d.setMemory (clean_clockGettime _ _ _ _ _ hret)
  · refine ⟨_, _, startCall_settime hnr, fun hret => ?_⟩
    exact congrArg (KernelData.mk d.tty d.memory) (clean_clockSettime _ _ _ _ _ hret)
  · exact absurd rfl hday
  · exact ⟨_, _, by rw [startCall, hnr]; rfl, clean_nanosleep _ _ _⟩

/-- A failed time call leaves everything outside the mailbox as it was, except when
`SYS_GETTIMEOFDAY` finds room for the time and none for the zone, and the memory did not
already hold what it stores. -/
theorem time_call_all_or_nothing_iff {c : Sys} (hnr : sysOfNr regs.nr = some c)
    (htime : c ∈ timeCalls) (raw : RawClocks) (s : CallState) :
    (s.returned (.call raw regs) = some (regs, -1) →
        Untouched s.data (s.next (.call raw regs)).data) ↔
      ¬ StoresAndFails raw regs s.data := by
  by_cases hday : c = .gettimeofday
  · subst hday
    have hstart : startCall raw regs s.data =
        (.inl (sysGettimeofday s.data.realtimeOffset raw regs.arg0 regs.arg1 s.data.memory).1,
          s.data.setMemory
            (sysGettimeofday s.data.realtimeOffset raw regs.arg0 regs.arg1 s.data.memory).2) := by
      rw [startCall, hnr]
    obtain ⟨hreturned, hnext⟩ := call_next hstart
    obtain ⟨hclean, hnone⟩ | ⟨tv, hfails, hcall⟩ :=
      sysGettimeofday_cases hnr s.data.realtimeOffset raw s.data.memory
    · refine iff_of_true (fun hret => ?_) ?_
      · have hmemory := hclean (Prod.mk.inj (Option.some.inj (hreturned.symm.trans hret))).2
        rw [hnext, hmemory]
        exact publish_untouched _ _ _
      · rintro ⟨tv, hfails, -⟩
        exact hnone tv hfails
    · rw [hcall] at hreturned hnext
      have hafter : Untouched (s.data.setMemory (tornMemory regs.arg0 regs.arg1 tv s.data.memory))
          (s.next (.call raw regs)).data := hnext ▸ publish_untouched _ _ _
      constructor
      · rintro hall ⟨tv', hfails', x, hx, hdiffers⟩
        obtain rfl := Option.some.inj (hfails'.time.symm.trans hfails.time)
        refine (tornMemory_ne_iff hfails.room tv' s.data.memory x).mpr hdiffers ?_
        exact (hafter.memory x hx).symm.trans ((hall hreturned).memory x hx)
      · intro hnot _
        refine ⟨hafter.tty, hafter.offset, fun x hx => (hafter.memory x hx).trans ?_⟩
        by_contra hne
        exact hnot ⟨tv, hfails, x, hx, (tornMemory_ne_iff hfails.room tv _ x).mp hne⟩
  · obtain ⟨r, d, hstart, hclean⟩ := startCall_clean hnr htime hday raw s.data
    obtain ⟨hreturned, hnext⟩ := call_next hstart
    refine iff_of_true (fun hret => ?_) ?_
    · have hd : d = s.data :=
        hclean (Prod.mk.inj (Option.some.inj (hreturned.symm.trans hret))).2
      rw [hnext, hd]
      exact publish_untouched _ _ _
    · rintro ⟨tv, hfails, -⟩
      exact hday (Option.some.inj (hnr.symm.trans hfails.nr))

/-- `SYS_CLOCK_GETRES` of an unknown clock. -/
theorem time_call_all_or_nothing_getres :
    fiveSeconds.returned (.call ⟨0, 0, 0⟩ ⟨14, 9, 4096, 0, 0, 0, 0⟩) =
        some (⟨14, 9, 4096, 0, 0, 0, 0⟩, -1) ∧
      ((fiveSeconds.returned (.call ⟨0, 0, 0⟩ ⟨14, 9, 4096, 0, 0, 0, 0⟩) =
          some (⟨14, 9, 4096, 0, 0, 0, 0⟩, -1) →
        Untouched fiveSeconds.data
          (fiveSeconds.next (.call ⟨0, 0, 0⟩ ⟨14, 9, 4096, 0, 0, 0, 0⟩)).data) ↔
        ¬ StoresAndFails ⟨0, 0, 0⟩ ⟨14, 9, 4096, 0, 0, 0, 0⟩ fiveSeconds.data) :=
  ⟨by decide +kernel,
    time_call_all_or_nothing_iff (c := .clockGetres) rfl (by decide) ⟨0, 0, 0⟩ fiveSeconds⟩

/-- The time of day with a zone at the last address: the call fails and the time is stored. -/
theorem failed_gettimeofday_stores :
    fiveSeconds.returned (.call ⟨7000000000, 0, 0⟩ ⟨13, 4096, 0xFFFFFFFF, 0, 0, 0, 0⟩) =
        some (⟨13, 4096, 0xFFFFFFFF, 0, 0, 0, 0⟩, -1) ∧
      ¬ Untouched fiveSeconds.data
        (fiveSeconds.next (.call ⟨7000000000, 0, 0⟩ ⟨13, 4096, 0xFFFFFFFF, 0, 0, 0, 0⟩)).data := by
  refine ⟨by decide +kernel, fun h => ?_⟩
  have hstays := h.memory 4096 (by unfold InMailbox; decide)
  exact absurd hstays (by decide +kernel)

end Dispatch

end LampVm
