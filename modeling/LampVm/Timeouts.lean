import LampVm.RealtimeClock

/-!
# Timeouts

How many ticks the kernel waits for a time that a task asks for. The conversion goes through
microseconds in 32 bits, which is enough for 4295 seconds: a longer time is cut off there, and
everything below is rounded up to a tick.
-/
namespace LampVm

open ByteOrder

/-! ## Rounding up -/

abbrev tickNs : ℕ := 50000000

/-- The ticks cover a time, and take less than one tick more. -/
structure Covers (ticks ns : ℕ) : Prop where
  enough : ns ≤ ticks * tickNs
  tight : ticks * tickNs < ns + tickNs

theorem covers_iff {ticks ns : ℕ} :
    Covers ticks ns ↔ ns ≤ ticks * 50000000 ∧ ticks * 50000000 < ns + 50000000 :=
  ⟨fun h => ⟨h.enough, h.tight⟩, fun h => ⟨h.1, h.2⟩⟩

instance (ticks ns : ℕ) : Decidable (Covers ticks ns) := decidable_of_iff _ covers_iff.symm

/-- The longest time that is not cut off: as many ticks as cover `0xFFFFFFFF` microseconds. -/
abbrev longestNs : ℕ := 4295000000000

theorem longestNs_eq : longestNs = 4295000000000 := rfl

/-- The ticks of `SYS_NANOSLEEP`. -/
def nanosleepTicks (req : Timespec) : BitVec 32 :=
  let ticks := divCeilU32 (nanosleepUs req) schedTickPeriodUs
  if ticks = 0 then 1 else ticks

section Rounding

variable {numer denom ms : BitVec 32} {req : Timespec}

theorem divCeilU32_toNat (hdenom : 1 < denom.toNat) : (divCeilU32 numer denom).toNat =
    numer.toNat / denom.toNat + if numer.toNat % denom.toNat = 0 then 0 else 1 := by
  have hne : denom ≠ 0 := by
    rintro rfl
    exact absurd hdenom (by decide)
  have hmod : numer % denom = 0 ↔ numer.toNat % denom.toNat = 0 := by
    rw [← BitVec.toNat_inj, BitVec.toNat_umod]
    rfl
  have hhalf : numer.toNat / denom.toNat ≤ numer.toNat / 2 :=
    Nat.div_le_div_left hdenom (by decide)
  have hlt := numer.isLt
  rw [divCeilU32, if_neg hne, BitVec.toNat_add, BitVec.toNat_udiv]
  generalize numer.toNat / denom.toNat = quotient at hhalf ⊢
  by_cases hzero : numer % denom = 0
  · have hstay : (0 : BitVec 32).toNat = 0 := rfl
    rw [if_neg (not_not.mpr hzero), if_pos (hmod.mp hzero), hstay]
    omega
  · have hup : (1 : BitVec 32).toNat = 1 := rfl
    rw [if_pos hzero, if_neg (mt hmod.mpr hzero), hup]
    omega

/-- A quotient that is rounded up. -/
theorem divCeilU32_bounds (numer : BitVec 32) (hdenom : 1 < denom.toNat) :
    numer.toNat ≤ (divCeilU32 numer denom).toNat * denom.toNat ∧
      (divCeilU32 numer denom).toNat * denom.toNat < numer.toNat + denom.toNat := by
  have hdiv := Nat.div_add_mod' numer.toNat denom.toNat
  have hmod := Nat.mod_lt numer.toNat (by omega : denom.toNat > 0)
  rw [divCeilU32_toNat hdenom, add_mul]
  split_ifs with hzero
  · omega
  · omega

/-- The ticks of a time in microseconds. -/
theorem ticks_of_us (us : BitVec 32) :
    us.toNat ≤ (divCeilU32 us schedTickPeriodUs).toNat * 50000 ∧
      (divCeilU32 us schedTickPeriodUs).toNat * 50000 < us.toNat + 50000 := by
  have hperiod : schedTickPeriodUs.toNat = 50000 := by decide
  have hbounds := divCeilU32_bounds us (hperiod ▸ by decide : 1 < schedTickPeriodUs.toNat)
  rwa [hperiod] at hbounds

/-- A sum in 32 bits that stops at the largest number. -/
theorem saturatingAdd_toNat (x y : BitVec 32) :
    (if x > 0xFFFFFFFF - y then 0xFFFFFFFF else x + y : BitVec 32).toNat =
      min (x.toNat + y.toNat) 4294967295 := by
  have hmax : (0xFFFFFFFF : BitVec 32).toNat = 4294967295 := by decide
  have hx := x.isLt
  have hy := y.isLt
  have hroom : (0xFFFFFFFF - y : BitVec 32).toNat = 4294967295 - y.toNat := by
    have hle : y ≤ 0xFFFFFFFF := by
      rw [BitVec.le_def, hmax]
      exact Nat.le_of_lt_succ hy
    rw [BitVec.toNat_sub_of_le hle, hmax]
  by_cases hfull : x > 0xFFFFFFFF - y
  · have hgt := BitVec.lt_def.mp hfull
    rw [hroom] at hgt
    rw [if_pos hfull, hmax]
    exact (Nat.min_eq_right (Nat.sub_le_iff_le_add.mp hgt.le)).symm
  · have hle := BitVec.le_def.mp (BitVec.not_lt.mp hfull)
    rw [hroom] at hle
    have hsum : x.toNat + y.toNat ≤ 4294967295 :=
      (Nat.le_sub_iff_add_le (Nat.le_of_lt_succ hy)).mp hle
    rw [if_neg hfull, BitVec.toNat_add, Nat.min_eq_left hsum]
    exact Nat.mod_eq_of_lt (Nat.lt_succ_of_le hsum)

/-- The microseconds of a valid request, rounded up and cut off. -/
theorem nanosleepUs_toNat (hvalid : req.valid = true) :
    (nanosleepUs req).toNat = min ((req.ns + 999) / 1000) 4294967295 := by
  obtain ⟨hsec, hnsec⟩ := req.ns_lt hvalid
  have hns : req.ns = req.sec.toNat * 1000000000 + req.nsec.toNat := rfl
  have hlast : (0xFFFFFFFF / 1000000 : BitVec 32).toNat = 4294 := by decide
  rw [nanosleepUs]
  by_cases hlong : req.sec > 0xFFFFFFFF / 1000000
  · have hmax : (0xFFFFFFFF : BitVec 32).toNat = 4294967295 := by decide
    have hgt : 4294 < req.sec.toNat := hlast ▸ hlong
    rw [if_pos hlong, hmax]
    omega
  · have hle : req.sec.toNat ≤ 4294 := hlast ▸ BitVec.not_lt.mp hlong
    have hthousand : (1000 : BitVec 32).toNat = 1000 := by decide
    have hmillion : (1000000 : BitVec 32).toNat = 1000000 := by decide
    have hus := divCeilU32_bounds req.nsec (hthousand ▸ by decide : 1 < (1000 : BitVec 32).toNat)
    rw [hthousand] at hus
    have htotal : (req.sec * 1000000).toNat = req.sec.toNat * 1000000 := by
      rw [BitVec.toNat_mul, hmillion]
      omega
    have hround : (req.ns + 999) / 1000 =
        req.sec.toNat * 1000000 + (divCeilU32 req.nsec 1000).toNat := by omega
    rw [if_neg hlong]
    exact (saturatingAdd_toNat (req.sec * 1000000) (divCeilU32 req.nsec 1000)).trans
      (by rw [htotal, hround])

end Rounding

/-! ## The ticks cover the time -/

section Cover

variable {ms : BitVec 32} {req : Timespec} {d : KernelData}

/-- A positive number of ticks is what a request rounds up to, up to the longest time. -/
theorem nanosleepTicks_covers (hvalid : req.valid = true) (hsome : ¬ (req.sec = 0 ∧ req.nsec = 0)) :
    Covers (nanosleepTicks req).toNat (min req.ns longestNs) := by
  have hpos : 0 < req.ns := by
    have hns : req.ns = req.sec.toNat * 1000000000 + req.nsec.toNat := rfl
    by_contra hzero
    have hsec : req.sec.toNat = 0 := by omega
    have hnsec : req.nsec.toNat = 0 := by omega
    exact hsome ⟨BitVec.eq_of_toNat_eq hsec, BitVec.eq_of_toNat_eq hnsec⟩
  have hus := nanosleepUs_toNat hvalid
  obtain ⟨henough, htight⟩ := ticks_of_us (nanosleepUs req)
  have hne : divCeilU32 (nanosleepUs req) schedTickPeriodUs ≠ 0 := by
    intro hzero
    rw [hzero, hus] at henough
    have hnone : (0 : BitVec 32).toNat = 0 := rfl
    omega
  rw [nanosleepTicks, if_neg hne, covers_iff, longestNs_eq]
  omega

theorem timeoutMsToTicks_covers (hpos : 0 < ms.toInt) :
    Covers (timeoutMsToTicks ms).toNat (min (ms.toNat * 1000000) longestNs) := by
  have hlast : (0xFFFFFFFF / 1000 : BitVec 32).toNat = 4294967 := by decide
  rw [timeoutMsToTicks, if_neg (not_le.mpr hpos), if_neg (by decide)]
  dsimp only
  by_cases hlong : ms > 0xFFFFFFFF / 1000
  · have hgt : 4294967 < ms.toNat := hlast ▸ hlong
    have hticks : (divCeilU32 0xFFFFFFFF schedTickPeriodUs).toNat = 85900 := by decide
    rw [if_pos hlong, hticks, covers_iff, longestNs_eq]
    omega
  · have hle : ms.toNat ≤ 4294967 := hlast ▸ BitVec.not_lt.mp hlong
    have hthousand : (1000 : BitVec 32).toNat = 1000 := by decide
    have hus : (ms * 1000).toNat = ms.toNat * 1000 := by
      rw [BitVec.toNat_mul, hthousand]
      omega
    obtain ⟨henough, htight⟩ := ticks_of_us (ms * 1000)
    rw [hus] at henough htight
    rw [if_neg hlong, covers_iff, longestNs_eq]
    omega

/-- The whole of a time is covered unless it is cut off. -/
theorem Covers.whole_iff {ticks ns : ℕ} (h : Covers ticks (min ns longestNs)) :
    Covers ticks ns ↔ ns ≤ longestNs := by
  by_cases hle : ns ≤ longestNs
  · rw [Nat.min_eq_left hle] at h
    exact iff_of_true h hle
  · rw [Nat.min_eq_right (not_le.mp hle).le] at h
    have htight := (covers_iff.mp h).2
    rw [longestNs_eq] at hle htight
    refine iff_of_false (fun hwhole => ?_) hle
    have henough := (covers_iff.mp hwhole).1
    omega

/-- A call that finds its arguments in order sleeps and returns 0. -/
theorem sysNanosleep_of_stored {reqAddr remAddr : BitVec 32} {memory : Bytes}
    (hread : abiUserReadTimespec reqAddr d.memory = some req) (hvalid : req.valid = true)
    (hsome : ¬ (req.sec = 0 ∧ req.nsec = 0))
    (hstore : abiUserWriteTimespecZero remAddr d.memory = some memory) :
    sysNanosleep reqAddr remAddr d = (⟨0, .ok⟩,
      (d.setMemory memory).setSched (schedSleepTicks (nanosleepTicks req) d.sched)) := by
  have hperiod : ¬ schedTickPeriodUs = 0 := by decide
  rw [sysNanosleep, hread]
  dsimp only
  rw [if_neg (not_not.mpr hvalid), hstore]
  dsimp only
  rw [if_neg hsome, if_neg hperiod]
  rfl

/-- A round of `SYS_POLL` or `SYS_SELECT` that finds nothing ends the call exactly when the
ticks of the timeout have passed. -/
theorem readyOrWait_ends_iff (hpos : 0 < ms.toInt) (startTick : BitVec 32) (waitReadStdin : Bool)
    (next : Waiting) : (readyOrWait 0 ms startTick waitReadStdin next d).1 = .inl ⟨0, .ok⟩ ↔
      timeoutMsToTicks ms ≤ d.sched.ticks - startTick := by
  have hne : ms ≠ 0 := by
    rintro rfl
    exact absurd hpos (by decide)
  have hnotneg : ¬ ms.toInt < 0 := by omega
  rw [readyOrWait, if_neg (not_not.mpr rfl), if_neg hne]
  by_cases hpassed : timeoutMsToTicks ms ≤ d.sched.ticks - startTick
  · rw [if_pos ⟨hpos, hpassed⟩]
    exact iff_of_true rfl hpassed
  · rw [if_neg fun h => hpassed h.2]
    cases waitReadStdin
    · rw [if_neg Bool.false_ne_true, if_neg hnotneg]
      exact iff_of_false Sum.inr_ne_inl hpassed
    · rw [if_pos rfl]
      exact iff_of_false Sum.inr_ne_inl hpassed

/-- The same of `SYS_POLL` without entries. -/
theorem sleepRound_ends_iff (hpos : 0 < ms.toInt) (startTick : BitVec 32) :
    (sleepRound ms startTick d).1 = .inl ⟨0, .ok⟩ ↔
      timeoutMsToTicks ms ≤ d.sched.ticks - startTick := by
  rw [sleepRound, if_pos hpos]
  dsimp only
  by_cases hpassed : timeoutMsToTicks ms ≤ d.sched.ticks - startTick
  · rw [if_pos hpassed, if_pos rfl]
    exact iff_of_true rfl hpassed
  · have hremain : timeoutMsToTicks ms - (d.sched.ticks - startTick) ≠ 0 := by bv_omega
    rw [if_neg hpassed, if_neg hremain]
    exact iff_of_false Sum.inr_ne_inl hpassed

/-- Whatever valid time a task asks for, the ticks that the kernel counts cover as much of it
as the conversion can hold, and less than a tick more. The whole of it is covered exactly up
to that bound. -/
theorem timeouts_cover_requests :
    (∀ reqAddr remAddr (d : KernelData) req memory,
      abiUserReadTimespec reqAddr d.memory = some req → req.valid = true →
      ¬ (req.sec = 0 ∧ req.nsec = 0) → abiUserWriteTimespecZero remAddr d.memory = some memory →
      sysNanosleep reqAddr remAddr d = (⟨0, .ok⟩,
          (d.setMemory memory).setSched (schedSleepTicks (nanosleepTicks req) d.sched)) ∧
        Covers (nanosleepTicks req).toNat (min req.ns longestNs) ∧
        (Covers (nanosleepTicks req).toNat req.ns ↔ req.ns ≤ longestNs)) ∧
    ∀ ms : BitVec 32, 0 < ms.toInt →
      Covers (timeoutMsToTicks ms).toNat (min (ms.toNat * 1000000) longestNs) ∧
      (Covers (timeoutMsToTicks ms).toNat (ms.toNat * 1000000) ↔
        ms.toNat * 1000000 ≤ longestNs) ∧
      ∀ (d : KernelData) startTick,
        ((sleepRound ms startTick d).1 = .inl ⟨0, .ok⟩ ↔
          timeoutMsToTicks ms ≤ d.sched.ticks - startTick) ∧
        ∀ waitReadStdin next,
          ((readyOrWait 0 ms startTick waitReadStdin next d).1 = .inl ⟨0, .ok⟩ ↔
            timeoutMsToTicks ms ≤ d.sched.ticks - startTick) := by
  refine ⟨fun reqAddr remAddr d req memory hread hvalid hsome hstore => ?_, fun ms hpos => ?_⟩
  · have hcovers := nanosleepTicks_covers hvalid hsome
    exact ⟨sysNanosleep_of_stored hread hvalid hsome hstore, hcovers, hcovers.whole_iff⟩
  · have hcovers := timeoutMsToTicks_covers hpos
    exact ⟨hcovers, hcovers.whole_iff, fun d startTick => ⟨sleepRound_ends_iff hpos startTick,
      fun waitReadStdin next => readyOrWait_ends_iff hpos startTick waitReadStdin next⟩⟩

/-- A task that asks for two hours at address 16. -/
def twoHours : KernelData :=
  fiveSeconds.data.setMemory fun a => if a = 16 then 0x20 else if a = 17 then 0x1c else 0

theorem timeouts_cover_seconds : Covers (nanosleepTicks ⟨5, 0⟩).toNat (Timespec.ns ⟨5, 0⟩) ∧
    Covers (timeoutMsToTicks 5000).toNat (5000 * 1000000) :=
  ⟨(timeouts_cover_requests.1 16 0 fiveSeconds.data ⟨5, 0⟩ fiveSeconds.data.memory
      (by decide +kernel) (by decide) (by decide) rfl).2.2.mpr (by decide),
    (timeouts_cover_requests.2 5000 (by decide)).2.1.mpr (by decide)⟩

theorem two_hours_cut_off :
    abiUserReadTimespec 16 twoHours.memory = some ⟨7200, 0⟩ ∧
      sysNanosleep 16 0 twoHours = (⟨0, .ok⟩, twoHours.setSched
        (schedSleepTicks (nanosleepTicks ⟨7200, 0⟩) twoHours.sched)) ∧
      ¬ Covers (nanosleepTicks ⟨7200, 0⟩).toNat (Timespec.ns ⟨7200, 0⟩) ∧
      ¬ Covers (timeoutMsToTicks 7200000).toNat (7200000 * 1000000) := by
  have hread : abiUserReadTimespec 16 twoHours.memory = some ⟨7200, 0⟩ := by decide +kernel
  refine ⟨hread, ?_, by decide +kernel, by decide +kernel⟩
  exact sysNanosleep_of_stored hread (by decide) (by decide) rfl

end Cover

end LampVm
