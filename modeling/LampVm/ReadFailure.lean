import LampVm.ReadChunks

/-!
# Reads that fail

When `SYS_READ` returns -1, and what it has done by then. `console_read` has one return code for
an end-of-file mark, which it takes, and for a console without input. The caller tells the two
apart by the mode of the descriptor: to a read that may not wait both are `EAGAIN`. A read that
may wait puts its task to sleep, and returns.
-/
namespace LampVm

open ByteOrder Transition

/-! ## The outcome of a call -/

/-- A call that may not wait. -/
def readNonblock (fd flags : BitVec 32) (t : Tty) : Bool :=
  fdIsNonblock fd t || (flags &&& sysIoNonblock ≠ 0)

/-- The call comes to the loop for the console. -/
structure ReadsConsole (fd bufAddr len : BitVec 32) (t : Tty) : Prop where
  readable : fdSupportsRead fd t = true
  console : fdWaitsConsoleRead fd t = true
  buffer : abiPtrRangeOk bufAddr len = true

/-- A console without input: no record is counted, or the ring is empty. -/
def Console.Dry (c : Console) : Prop :=
  (c.canonical = true ∧ c.lines = 0 ∧ c.eofs = 0) ∨ c.contents = []

/-- An end-of-file mark is the next byte, and a record is counted. -/
structure Console.MarkFirst (c : Console) : Prop where
  canonical : c.canonical = true
  counted : c.lines ≠ 0 ∨ c.eofs ≠ 0
  mark : c.contents.head? = some ttyCcVeof

/-- The console behind an end-of-file mark. -/
def Console.eatMark (c : Console) : Console :=
  { c with eofs := if c.eofs ≠ 0 then c.eofs - 1 else c.eofs, tail := c.tail + 1 }

section Console

variable {c : Console} {t : Tty} {len bufAddr copied : BitVec 32} {nonblock : Bool} {n : ℕ}
  {s : IoState}

theorem Console.takesNothing_iff : c.TakesNothing ↔ c.Dry ∨ c.MarkFirst := by
  constructor
  · rintro (hnone | hnil | ⟨hcan, hmark⟩)
    · exact .inl (.inl hnone)
    · exact .inl (.inr hnil)
    · by_cases hzero : c.lines = 0 ∧ c.eofs = 0
      · exact .inl (.inl ⟨hcan, hzero⟩)
      · exact .inr ⟨hcan, not_and_or.mp hzero, hmark⟩
  · rintro ((hnone | hnil) | ⟨hcan, -, hmark⟩)
    · exact .inl hnone
    · exact .inr (.inl hnil)
    · exact .inr (.inr ⟨hcan, hmark⟩)

theorem Console.MarkFirst.not_dry (h : c.MarkFirst) : ¬ c.Dry := by
  rintro (⟨-, hlines, heofs⟩ | hnil)
  · exact h.counted.elim (· hlines) (· heofs)
  · have hmark := h.mark
    rw [hnil] at hmark
    cases hmark

theorem consoleRead_dry (hlen : len ≠ 0) (h : t.console.Dry) (nonblock : Bool) :
    consoleRead len nonblock t = consoleReadBlocked nonblock t := by
  by_cases hnone : t.console.canonical = true ∧ t.console.lines = 0 ∧ t.console.eofs = 0
  · exact consoleRead_of_none hlen hnone nonblock
  · have hnil : t.console.contents = [] := h.resolve_left hnone
    rw [consoleRead_of_some hlen hnone (readLoop_empty hnil _), if_neg (by simp), if_neg (by simp)]

/-- The mark is taken, and the return code is that of a console without input. -/
theorem consoleRead_mark (hlen : len ≠ 0) (h : t.console.MarkFirst) (nonblock : Bool) :
    ∃ c : Console, consoleRead len nonblock t = (0, [], { t with console := c }) ∧
      t.console.contents = ttyCcVeof :: c.contents := by
  obtain ⟨n, hn⟩ := Nat.exists_eq_add_one_of_ne_zero (BitVec.toNat_ne_iff_ne.mpr hlen)
  have hne : t.console.tail ≠ t.console.head := fun hempty =>
    h.not_dry (.inr (Console.contents_eq_nil_iff.mpr hempty))
  have hcons := Console.contents_eq_cons hne
  have hmark : t.console.buf t.console.tail = ttyCcVeof := by
    have hhead := h.mark
    rw [hcons, List.head?_cons] at hhead
    exact Option.some.inj hhead
  have hnone : ¬ (t.console.canonical = true ∧ t.console.lines = 0 ∧ t.console.eofs = 0) :=
    fun hnone => h.not_dry (.inl hnone)
  rw [hmark] at hcons
  refine ⟨t.console.eatMark, ?_, hcons⟩
  have hloop : consoleReadLoop t.console.canonical len.toNat t.console =
      ([], true, t.console.eatMark) := by
    rw [hn, consoleReadLoop, if_neg hne]
    dsimp only
    rw [if_pos ⟨h.canonical, hmark⟩]
    rfl
  rw [consoleRead_of_some hlen hnone hloop, if_neg (by simp), if_pos ⟨h.canonical, rfl⟩]

/-! ## The loop for the console -/

/-- Without input the call fails. If it may wait, it has put its task to sleep. -/
theorem readConsole_dry (hbuf : abiPtrRangeOk bufAddr len = true) (h : s.tty.console.Dry)
    (nonblock : Bool) : readConsole bufAddr len nonblock len.toNat 0 s =
      (syscallFailure .eagain, { s with tty := (consoleReadBlocked nonblock s.tty).2.2 }) := by
  obtain ⟨-, hlen, -⟩ := abiPtrRangeOk_iff.mp hbuf
  rw [(readConsole_of_nothing hbuf nonblock (Console.takesNothing_iff.mpr (.inl h))).2, readOnce,
    consoleRead_dry hlen h]
  cases nonblock <;> rfl

/-- An end-of-file mark is taken. -/
theorem readConsole_mark (hbuf : abiPtrRangeOk bufAddr len = true) (h : s.tty.console.MarkFirst)
    (nonblock : Bool) : ∃ c : Console, readConsole bufAddr len nonblock len.toNat 0 s =
        (if nonblock then syscallFailure .eagain else ⟨0, .ok⟩,
          { s with tty := { s.tty with console := c } }) ∧
      s.tty.console.contents = ttyCcVeof :: c.contents := by
  obtain ⟨-, hlen, -⟩ := abiPtrRangeOk_iff.mp hbuf
  obtain ⟨c, hread, hcontents⟩ := consoleRead_mark hlen h nonblock
  refine ⟨c, ?_, hcontents⟩
  rw [(readConsole_of_nothing hbuf nonblock (Console.takesNothing_iff.mpr (.inr h))).2, readOnce,
    hread]
  cases nonblock <;> rfl

theorem size_of_buffer (hbuf : abiPtrRangeOk bufAddr len = true) : len.toNat ≤ 0x04000000 := by
  obtain ⟨-, -, hrange⟩ := abiPtrRangeOk_iff.mp hbuf
  have hsize : kernelMemSize.toNat = 0x04000000 := rfl
  omega

/-- A size within the caller's memory is not -1. -/
theorem ne_failure (hbuf : abiPtrRangeOk bufAddr len = true) {v : BitVec 32}
    (hv : v.toNat ≤ len.toNat) : v ≠ -1 := by
  rintro rfl
  have hle := size_of_buffer hbuf
  have hminus : (-1 : BitVec 32).toNat = 0xFFFFFFFF := rfl
  omega

theorem readRounds_bytes_le {canonical : Bool} {rem : ℕ} :
    (readRounds canonical n rem c).1.length ≤ rem := by
  induction n generalizing rem c with
  | zero => exact Nat.zero_le _
  | succ n ih =>
    rw [readRounds]
    by_cases hstop : rem = 0 ∨ canonical = true ∧ c.lines = 0 ∧ c.eofs = 0
    · rw [if_pos hstop]
      exact Nat.zero_le _
    · have hloop : (consoleReadLoop canonical (min 64 rem) c).1.length ≤ min 64 rem :=
        readLoop_length_le
      rw [if_neg hstop]
      dsimp only
      split_ifs with hshort
      · exact hloop.trans (Nat.min_le_right _ _)
      · have hrest : (readRounds canonical n (rem - min 64 rem)
            (consoleReadLoop canonical (min 64 rem) c).2.2).1.length ≤ rem - min 64 rem := ih
        rw [List.length_append]
        omega

/-- With input the call returns the number of bytes. -/
theorem readConsole_bytes (hbuf : abiPtrRangeOk bufAddr len = true)
    (hdry : ¬ s.tty.console.Dry) (hmark : ¬ s.tty.console.MarkFirst) (nonblock : Bool) :
    (readConsole bufAddr len nonblock len.toNat 0 s).1.ret ≠ -1 ∧
      (readConsole bufAddr len nonblock len.toNat 0 s).1.err = .ok := by
  have hbytes : ¬ s.tty.console.TakesNothing := fun h =>
    (Console.takesNothing_iff.mp h).elim hdry hmark
  rw [readConsole_of_bytes hbuf nonblock hbytes, readStored_zero]
  refine ⟨ne_failure hbuf ?_, rfl⟩
  rw [BitVec.toNat_ofNat]
  exact (Nat.mod_le _ _).trans readRounds_bytes_le

/-! ## Calls that do not come to it -/

/-- The loop for `/dev/zero` does not fail. -/
theorem readZeros_ok (hbuf : abiPtrRangeOk bufAddr len = true) (hle : copied.toNat ≤ len.toNat)
    (memory : Bytes) : (readZeros bufAddr len n copied memory).1.err = .ok ∧
      (readZeros bufAddr len n copied memory).1.ret.toNat ≤ len.toNat := by
  induction n generalizing copied memory with
  | zero => exact ⟨rfl, hle⟩
  | succ n ih =>
    rw [readZeros]
    by_cases hlt : copied < len
    · obtain ⟨hne, hsum⟩ := chunkSize_spec hlt
      have hlength := List.length_replicate (n := (chunkSize len copied).toNat)
        (a := (0 : BitVec 8))
      have hstored : abiUserWriteBytes (bufAddr + copied)
          (List.replicate (chunkSize len copied).toNat 0) memory = _ :=
        abiUserWriteBytes_within hbuf (List.ne_nil_of_length_pos (by omega)) (by omega) memory
      have hnext : (copied + chunkSize len copied).toNat ≤ len.toNat := by
        rw [BitVec.toNat_add, Nat.mod_eq_of_lt (by omega)]
        exact hsum
      rw [if_pos hlt]
      dsimp only
      rw [hstored]
      exact ih hnext _
    · rw [if_neg hlt]
      exact ⟨rfl, hle⟩

end Console

section Call

variable {fd bufAddr len flags : BitVec 32} {s : IoState}

/-- A call that does not come to the console's loop does not fail, or fails at once, with another
error than `EAGAIN`. -/
theorem sysRead_elsewhere (h : ¬ ReadsConsole fd bufAddr len s.tty) :
    (sysRead fd bufAddr len flags s).1.err ≠ .eagain ∧
      ((sysRead fd bufAddr len flags s).1.ret ≠ -1 ∨ (sysRead fd bufAddr len flags s).2 = s) := by
  by_cases hread : fdSupportsRead fd s.tty = true
  · rw [sysRead, if_neg (not_not.mpr hread)]
    by_cases hlen : len = 0
    · rw [if_pos hlen]
      exact ⟨Errno.noConfusion, .inr rfl⟩
    · rw [if_neg hlen]
      by_cases hbuf : bufAddr = 0 ∨ ¬ abiPtrRangeOk bufAddr len = true
      · rw [if_pos hbuf]
        exact ⟨Errno.noConfusion, .inr rfl⟩
      · have hok : abiPtrRangeOk bufAddr len = true := not_not.mp (not_or.mp hbuf).2
        have hconsole : ¬ fdWaitsConsoleRead fd s.tty = true := fun hw => h ⟨hread, hw, hok⟩
        obtain ⟨-, -, htype⟩ := supportsRead_cases hread
        rw [if_neg hbuf]
        rcases htype.resolve_left hconsole with htype | htype | htype
        · have hstart : (0 : BitVec 32).toNat ≤ len.toNat := Nat.zero_le _
          obtain ⟨herr, hret⟩ := readZeros_ok (n := len.toNat) hok hstart s.memory
          rw [htype, if_neg (by decide), if_pos rfl]
          refine ⟨?_, .inl (ne_failure hok hret)⟩
          dsimp only
          rw [herr]
          exact Errno.noConfusion
        · rw [htype, if_pos rfl]
          exact ⟨Errno.noConfusion, .inr rfl⟩
        · rw [htype, if_neg (by decide), if_neg (by decide), if_pos rfl]
          exact ⟨Errno.noConfusion, .inr rfl⟩
  · rw [sysRead, if_pos hread]
    exact ⟨Errno.noConfusion, .inr rfl⟩

theorem sysRead_of_console (h : ReadsConsole fd bufAddr len s.tty) :
    sysRead fd bufAddr len flags s =
      readConsole bufAddr len (readNonblock fd flags s.tty) len.toNat 0 s :=
  sysRead_console h.readable h.console h.buffer

end Call

/-- Sixteen bytes from the standard input. -/
theorem stdin_readsConsole {t : Tty} (h : t.fds = some .initStdio) :
    ReadsConsole 0 0x2000 16 t where
  readable := by
    rw [fdSupportsRead, h]
    decide
  console := by
    unfold fdWaitsConsoleRead fdType
    rw [h]
    decide
  buffer := by decide

/-! ## What a failed read leaves -/

/-- The ring, the counters and the caller's memory are as before. -/
structure InputKept (s s' : IoState) : Prop where
  contents : s'.tty.console.contents = s.tty.console.contents
  lines : s'.tty.console.lines = s.tty.console.lines
  eofs : s'.tty.console.eofs = s.tty.console.eofs
  memory : s'.memory = s.memory

theorem InputKept.of_eq {s s' : IoState} (h : s' = s) : InputKept s s' := by
  subst h
  exact ⟨rfl, rfl, rfl, rfl⟩

/-- For every state and all arguments: a call that returns -1 keeps the input, unless it may not
wait and finds an end-of-file mark first. -/
theorem failed_read_keeps_iff (fd bufAddr len flags : BitVec 32) (s : IoState) :
    ((sysRead fd bufAddr len flags s).1.ret = -1 →
      InputKept s (sysRead fd bufAddr len flags s).2) ↔
    ¬ (ReadsConsole fd bufAddr len s.tty ∧ readNonblock fd flags s.tty = true ∧
      s.tty.console.MarkFirst) := by
  by_cases hconsole : ReadsConsole fd bufAddr len s.tty
  · rw [sysRead_of_console hconsole]
    have hbuf := hconsole.buffer
    by_cases hdry : s.tty.console.Dry
    · rw [readConsole_dry hbuf hdry]
      refine iff_of_true (fun _ => ?_) (fun h => h.2.2.not_dry hdry)
      have hsame := readBlocked_console (readNonblock fd flags s.tty) s.tty
      exact ⟨congrArg Console.contents hsame, congrArg Console.lines hsame,
        congrArg Console.eofs hsame, rfl⟩
    · by_cases hmark : s.tty.console.MarkFirst
      · obtain ⟨c, hrun, hcontents⟩ := readConsole_mark hbuf hmark (readNonblock fd flags s.tty)
        rw [hrun]
        cases hmode : readNonblock fd flags s.tty with
        | true =>
          refine iff_of_false (fun hkept => ?_) (not_not.mpr ⟨hconsole, rfl, hmark⟩)
          have hsame : c.contents = s.tty.console.contents := (hkept rfl).contents
          rw [← hsame] at hcontents
          exact List.cons_ne_self _ _ hcontents.symm
        | false =>
          refine iff_of_true (fun hfailed => ?_) (fun h => Bool.false_ne_true h.2.1)
          change (0 : BitVec 32) = -1 at hfailed
          exact absurd hfailed (by decide)
      · obtain ⟨hret, -⟩ := readConsole_bytes hbuf hdry hmark (readNonblock fd flags s.tty)
        exact iff_of_true (fun hfailed => absurd hfailed hret) (fun h => hmark h.2.2)
  · obtain ⟨-, hret | hsame⟩ : _ ∧ ((sysRead fd bufAddr len flags s).1.ret ≠ -1 ∨ _) :=
      sysRead_elsewhere hconsole
    · exact iff_of_true (fun hfailed => absurd hfailed hret) (fun h => hconsole h.1)
    · exact iff_of_true (fun _ => .of_eq hsame) (fun h => hconsole h.1)

/-- An end-of-file mark is typed, and a read that may not wait swallows it. -/
theorem failed_read_swallows_mark : ¬ ∀ (fd bufAddr len flags : BitVec 32) (s : IoState),
    Reachable consoleCalls s.tty → (sysRead fd bufAddr len flags s).1.ret = -1 →
    InputKept s (sysRead fd bufAddr len flags s).2 := by
  intro hall
  have hview : (stdinTyped ttyCcVeof).tty.console.view = ⟨[ttyCcVeof], 0, 1, 7⟩ :=
    stdinTyped_view rfl
  have hlflag : (stdinTyped ttyCcVeof).tty.console.lflag = 7 := congrArg ConsoleView.lflag hview
  have heofs : (stdinTyped ttyCcVeof).tty.console.eofs = 1 := congrArg ConsoleView.eofs hview
  have hfirst : (stdinTyped ttyCcVeof).tty.console.MarkFirst := by
    refine ⟨?_, .inr ?_, ?_⟩
    · rw [Console.canonical, hlflag]
      decide
    · rw [heofs]
      decide
    · rw [stdinTyped_contents rfl]
      rfl
  have hstart : Reachable consoleCalls stdinTask := .of_init ⟨_, rfl⟩
  have hfeed : consoleCalls.step stdinTask (.feed ttyCcVeof) (stdinTyped ttyCcVeof).tty := rfl
  have hconsole : ReadsConsole 0 0x2000 16 (stdinTyped ttyCcVeof).tty :=
    stdin_readsConsole (stdinTyped_fds rfl)
  refine (failed_read_keeps_iff 0 0x2000 16 1 (stdinTyped ttyCcVeof)).mp
    (hall 0 0x2000 16 1 _ (hstart.step hfeed)) ⟨hconsole, ?_, hfirst⟩
  rw [readNonblock, decide_eq_true (by decide), Bool.or_true]

/-! ## Reads that may wait -/

/-- What a read promises. It fails with `EAGAIN` only if it may not wait. One that may wait
returns from the console with success and after there is input, and its task is not blocked
then. The call has one round: the console that it finds is the one on which it returns. -/
structure ReadWaits (fd bufAddr len flags : BitVec 32) (s : IoState) : Prop where
  eagain : (sysRead fd bufAddr len flags s).1.ret = -1 →
    (sysRead fd bufAddr len flags s).1.err = .eagain → readNonblock fd flags s.tty = true
  input : ReadsConsole fd bufAddr len s.tty → readNonblock fd flags s.tty = false →
    (sysRead fd bufAddr len flags s).1.ret ≠ -1 ∧ ¬ s.tty.console.Dry
  awake : ReadsConsole fd bufAddr len s.tty → readNonblock fd flags s.tty = false →
    ∀ i, schedCurrentSlot s.tty.sched = some i → (s.tty.sched.tasks i).state ≠ .blocked →
      ((sysRead fd bufAddr len flags s).2.tty.sched.tasks i).state ≠ .blocked

/-- A read that finds input returns, and leaves the tasks alone. -/
theorem readConsole_input {bufAddr len : BitVec 32} {s : IoState}
    (hbuf : abiPtrRangeOk bufAddr len = true) (hdry : ¬ s.tty.console.Dry) :
    (readConsole bufAddr len false len.toNat 0 s).1.ret ≠ -1 ∧
      (readConsole bufAddr len false len.toNat 0 s).2.tty.sched = s.tty.sched := by
  by_cases hmark : s.tty.console.MarkFirst
  · obtain ⟨c, hrun, -⟩ := readConsole_mark hbuf hmark false
    rw [hrun]
    refine ⟨?_, rfl⟩
    change (0 : BitVec 32) ≠ -1
    decide
  · have hbytes : ¬ s.tty.console.TakesNothing := fun h =>
      (Console.takesNothing_iff.mp h).elim hdry hmark
    refine ⟨(readConsole_bytes hbuf hdry hmark false).1, ?_⟩
    rw [readConsole_of_bytes hbuf false hbytes]
    rfl

/-- For every state and all arguments: a read keeps the promise unless it would have to wait. -/
theorem read_waits_iff (fd bufAddr len flags : BitVec 32) (s : IoState) :
    ReadWaits fd bufAddr len flags s ↔
      ¬ (ReadsConsole fd bufAddr len s.tty ∧ readNonblock fd flags s.tty = false ∧
        s.tty.console.Dry) := by
  constructor
  · rintro h ⟨hconsole, hmode, hdry⟩
    exact (h.input hconsole hmode).2 hdry
  · intro h
    have hinput (hconsole : ReadsConsole fd bufAddr len s.tty)
        (hmode : readNonblock fd flags s.tty = false) : ¬ s.tty.console.Dry ∧
        (sysRead fd bufAddr len flags s).1.ret ≠ -1 ∧
        (sysRead fd bufAddr len flags s).2.tty.sched = s.tty.sched := by
      have hdry : ¬ s.tty.console.Dry := fun hdry => h ⟨hconsole, hmode, hdry⟩
      rw [sysRead_of_console hconsole, hmode]
      exact ⟨hdry, readConsole_input hconsole.buffer hdry⟩
    refine ⟨fun hret herr => ?_, fun hconsole hmode => ?_, fun hconsole hmode i _ hstate => ?_⟩
    · by_cases hconsole : ReadsConsole fd bufAddr len s.tty
      · by_contra hmode
        exact (hinput hconsole (Bool.eq_false_iff.mpr hmode)).2.1 hret
      · exact absurd herr (sysRead_elsewhere hconsole).1
    · obtain ⟨hdry, hret, -⟩ := hinput hconsole hmode
      exact ⟨hret, hdry⟩
    · rw [(hinput hconsole hmode).2.2]
      exact hstate

/-- The first task reads its standard input before anything is typed: the read fails, and the
task is blocked while it goes on running. -/
theorem read_does_not_wait : (¬ ∀ (fd bufAddr len flags : BitVec 32) (s : IoState),
    Reachable consoleCalls s.tty → ReadWaits fd bufAddr len flags s) ∧
    (sysRead 0 0x2000 16 0 ⟨stdinTask, stdinEntry⟩).1 = syscallFailure .eagain ∧
    schedCurrentSlot stdinTask.sched = some 1 ∧ (stdinTask.sched.tasks 1).state = .running ∧
    ((sysRead 0 0x2000 16 0 ⟨stdinTask, stdinEntry⟩).2.tty.sched.tasks 1).state = .blocked := by
  have hfds : stdinTask.fds = some .initStdio := rfl
  have hconsole : ReadsConsole 0 0x2000 16 stdinTask := stdin_readsConsole hfds
  have hdry : stdinTask.console.Dry := .inr (contents_init _)
  have hmode : readNonblock 0 0 stdinTask = false := by
    rw [readNonblock, fdIsNonblock, hfds]
    decide
  have hrun : sysRead 0 0x2000 16 0 ⟨stdinTask, stdinEntry⟩ = (syscallFailure .eagain,
      { tty := (consoleReadBlocked false stdinTask).2.2, memory := stdinEntry }) := by
    have hcall : sysRead 0 0x2000 16 0 ⟨stdinTask, stdinEntry⟩ =
        readConsole 0x2000 16 (readNonblock 0 0 stdinTask) 16 0 ⟨stdinTask, stdinEntry⟩ :=
      sysRead_of_console hconsole
    rw [hcall, hmode]
    exact readConsole_dry (s := ⟨stdinTask, stdinEntry⟩) hconsole.buffer hdry false
  rw [hrun]
  refine ⟨fun hall => ?_, rfl, rfl, rfl, rfl⟩
  have hstart : Reachable consoleCalls stdinTask := .of_init ⟨_, rfl⟩
  exact (read_waits_iff 0 0x2000 16 0 ⟨stdinTask, stdinEntry⟩).mp
    (hall 0 0x2000 16 0 ⟨stdinTask, stdinEntry⟩ hstart) ⟨hconsole, hmode, hdry⟩

end LampVm
