import LampVm.TaskExit
import LampVm.Console

/-!
# Readers of the console and the interrupt handler

A call of `console_read` or `console_wait_readable` that may block, one statement at a
time, with runs of `console_rx_feed` between any two statements. The test that there is
nothing to read and the statement that puts the reader to sleep are not one step. A byte
that arrives between them finds nobody to wake, and the reader goes to sleep on it.
-/
namespace LampVm

open Transition

/-! ## The statements -/

/-- The next statement of a call. -/
inductive ReadPlace
  /-- `if (console_can_read())` of `console_wait_readable`. -/
  | waitTest
  | start
  | mode
  | countTest
  | loopTest
  | loadTail
  | emptyTest
  | loadByte
  | eofTest
  | eofCountTest
  | eofCount
  | eofTail
  | sawEof
  | store
  | lineTest
  | lineCount
  | lineMode
  | lineTail
  | advance
  | storedTest
  | sawEofTest
  /-- `if (nonblock)`, with the argument 0. -/
  | nonblockTest
  | sleep
  | done
  deriving DecidableEq, Repr

/-- A call with its local variables; the number of stored bytes is the length of `dst`. -/
structure ReadCall where
  tty : Tty
  place : ReadPlace
  canonical : Bool
  sawEof : Bool
  tail : Fin consoleRxCap
  byte : BitVec 8
  dst : List (BitVec 8)
  ret : ℤ

/-- The call before its first statement. -/
def ReadCall.enter (place : ReadPlace) (t : Tty) : ReadCall :=
  ⟨t, place, false, false, 0, 0, [], 0⟩

def ReadCall.goto (s : ReadCall) (place : ReadPlace) : ReadCall := { s with place := place }

def ReadCall.return (s : ReadCall) (ret : ℤ) : ReadCall := { s with place := .done, ret := ret }

def ReadCall.setConsole (s : ReadCall) (c : Console) : ReadCall :=
  { s with tty := { s.tty with console := c } }

/-- One statement of a call with room for `len` bytes. -/
def ReadCall.next (len : BitVec 32) (s : ReadCall) : ReadCall :=
  let c := s.tty.console
  match s.place with
  | .waitTest => if consoleCanRead c then s.return consoleIoOk else s.goto .nonblockTest
  | .start => if len = 0 then s.return 0 else s.goto .mode
  | .mode => { s with canonical := c.canonical, place := .countTest }
  | .countTest =>
    if s.canonical ∧ c.lines = 0 ∧ c.eofs = 0 then s.goto .nonblockTest else s.goto .loopTest
  | .loopTest => if s.dst.length < len.toNat then s.goto .loadTail else s.goto .storedTest
  | .loadTail => { s with tail := c.tail, place := .emptyTest }
  | .emptyTest => if s.tail = c.head then s.goto .storedTest else s.goto .loadByte
  | .loadByte => { s with byte := c.buf s.tail, place := .eofTest }
  | .eofTest => if s.canonical ∧ s.byte = ttyCcVeof then s.goto .eofCountTest else s.goto .store
  | .eofCountTest => if c.eofs ≠ 0 then s.goto .eofCount else s.goto .eofTail
  | .eofCount => (s.setConsole { c with eofs := c.eofs - 1 }).goto .eofTail
  | .eofTail => (s.setConsole { c with tail := s.tail + 1 }).goto .sawEof
  | .sawEof => { s with sawEof := true, place := .storedTest }
  | .store => { s with dst := s.dst ++ [s.byte], place := .lineTest }
  | .lineTest =>
    if s.byte = asciiLf ∧ c.lines ≠ 0 then s.goto .lineCount else s.goto .advance
  | .lineCount => (s.setConsole { c with lines := c.lines - 1 }).goto .lineMode
  | .lineMode => if s.canonical then s.goto .lineTail else s.goto .advance
  | .lineTail => (s.setConsole { c with tail := s.tail + 1 }).goto .storedTest
  | .advance => (s.setConsole { c with tail := s.tail + 1 }).goto .loopTest
  | .storedTest => if s.dst.length ≠ 0 then s.return s.dst.length else s.goto .sawEofTest
  | .sawEofTest => if s.canonical ∧ s.sawEof then s.return 0 else s.goto .nonblockTest
  | .nonblockTest => s.goto .sleep
  | .sleep =>
    { s with tty := { s.tty with sched := schedWaitqSleep .console 0 s.tty.sched } }.return
      consoleIoBlocked
  | .done => s

inductive ReadLabel
  | statement
  | feed (ch : BitVec 8)
  deriving DecidableEq, Repr

def ReadCall.step (len : BitVec 32) (s : ReadCall) : ReadLabel → ReadCall
  | .statement => s.next len
  | .feed ch => { s with tty := consoleRxFeed ch s.tty }

/-- The calls of both functions, interrupted anywhere. -/
def consoleReader (len : BitVec 32) : System ReadCall ReadLabel where
  init s := ∃ t, s = .enter .start t ∨ s = .enter .waitTest t
  step s l s' := s' = s.step len l

/-! ## The call without interrupts -/

section Uninterrupted

variable {len : BitVec 32} {s : ReadCall}

/-- `s` comes to `s'` by statements alone. -/
def Statements (len : BitVec 32) (s s' : ReadCall) : Prop := ∃ k, (ReadCall.next len)^[k] s = s'

theorem Statements.refl (s : ReadCall) : Statements len s s := ⟨0, rfl⟩

theorem Statements.step {s' s'' : ReadCall} (h : s.next len = s') (h' : Statements len s' s'') :
    Statements len s s'' := by
  obtain ⟨k, hk⟩ := h'
  exact ⟨k + 1, by rw [Function.iterate_succ_apply, h, hk]⟩

/-- The statements of the loop compute `consoleReadLoop`. -/
theorem loop_statements (canonical : Bool) (n : ℕ) (t : Tty) (tail : Fin consoleRxCap)
    (byte : BitVec 8) (dst : List (BitVec 8)) (ret : ℤ) (hn : dst.length + n = len.toNat) :
    ∃ tail' byte', Statements len ⟨t, .loopTest, canonical, false, tail, byte, dst, ret⟩
      ⟨{ t with console := (consoleReadLoop canonical n t.console).2.2 }, .storedTest, canonical,
        (consoleReadLoop canonical n t.console).2.1, tail', byte',
        dst ++ (consoleReadLoop canonical n t.console).1, ret⟩ := by
  induction n generalizing t tail byte dst with
  | zero =>
    refine ⟨tail, byte, .step (if_neg (by dsimp only; omega)) ?_⟩
    rw [consoleReadLoop, List.append_nil]
    exact .refl _
  | succ n ih =>
    have hroom : dst.length < len.toNat := by omega
    rw [consoleReadLoop]
    by_cases hempty : t.console.tail = t.console.head
    · refine ⟨t.console.tail, byte, .step (if_pos hroom) (.step rfl (.step (if_pos hempty) ?_))⟩
      rw [if_pos hempty, List.append_nil]
      exact .refl _
    rw [if_neg hempty]
    dsimp only
    by_cases heof : canonical = true ∧ t.console.buf t.console.tail = ttyCcVeof
    · rw [if_pos heof]
      refine ⟨t.console.tail, t.console.buf t.console.tail, .step (if_pos hroom) (.step rfl
        (.step (if_neg hempty) (.step rfl (.step (if_pos heof) ?_))))⟩
      rw [List.append_nil]
      by_cases hcount : t.console.eofs ≠ 0
      · rw [if_pos hcount]
        exact .step (if_pos hcount) (.step rfl (.step rfl (.step rfl (.refl _))))
      · rw [if_neg hcount]
        exact .step (if_neg hcount) (.step rfl (.step rfl (.refl _)))
    rw [if_neg heof]
    have hlength : (dst ++ [t.console.buf t.console.tail]).length + n = len.toNat := by
      rw [List.length_append, List.length_singleton]
      omega
    have hstore : ∀ {u : ReadCall}, Statements len ⟨t, .lineTest, canonical, false,
        t.console.tail, t.console.buf t.console.tail, dst ++ [t.console.buf t.console.tail], ret⟩ u →
        Statements len ⟨t, .loopTest, canonical, false, tail, byte, dst, ret⟩ u := fun hrest =>
      .step (if_pos hroom) (.step rfl (.step (if_neg hempty) (.step rfl (.step (if_neg heof)
        (.step rfl hrest)))))
    by_cases hline : t.console.buf t.console.tail = asciiLf ∧ t.console.lines ≠ 0
    · rw [if_pos hline]
      cases canonical with
      | true =>
        exact ⟨t.console.tail, t.console.buf t.console.tail, hstore (.step (if_pos hline)
          (.step rfl (.step rfl (.step rfl (.refl _)))))⟩
      | false =>
        obtain ⟨tail', byte', hloop⟩ := ih
          { t with console := { t.console with
            lines := t.console.lines - 1, tail := t.console.tail + 1 } }
          t.console.tail (t.console.buf t.console.tail) (dst ++ [t.console.buf t.console.tail])
          hlength
        rw [List.append_assoc] at hloop
        exact ⟨tail', byte', hstore (.step (if_pos hline) (.step rfl (.step rfl
          (.step rfl hloop))))⟩
    · rw [if_neg hline]
      obtain ⟨tail', byte', hloop⟩ := ih
        { t with console := { t.console with tail := t.console.tail + 1 } }
        t.console.tail (t.console.buf t.console.tail) (dst ++ [t.console.buf t.console.tail])
        hlength
      rw [List.append_assoc] at hloop
      exact ⟨tail', byte', hstore (.step (if_neg hline) (.step rfl hloop))⟩

/-- Without interrupts a call of `console_read` that may block computes `consoleRead`. -/
theorem read_statements (t : Tty) : ∃ s, Statements len (.enter .start t) s ∧ s.place = .done ∧
    (s.ret, s.dst, s.tty) = consoleRead len false t := by
  by_cases hlen : len = 0
  · refine ⟨_, .step (if_pos hlen) (.refl _), rfl, ?_⟩
    rw [consoleRead, if_pos hlen]
    rfl
  by_cases hnone : t.console.canonical = true ∧ t.console.lines = 0 ∧ t.console.eofs = 0
  · rw [consoleRead_of_none hlen hnone]
    exact ⟨_, .step (if_neg hlen) (.step rfl (.step (if_pos hnone) (.step rfl
      (.step rfl (.refl _))))), rfl, rfl⟩
  obtain ⟨tail', byte', hloop⟩ := loop_statements t.console.canonical len.toNat t 0 0 [] 0
    (Nat.zero_add len.toNat)
  rw [List.nil_append] at hloop
  rw [consoleRead_of_some hlen hnone rfl]
  generalize consoleReadLoop t.console.canonical len.toNat t.console = r at hloop ⊢
  have hstart : ∀ {u : ReadCall}, Statements len ⟨{ t with console := r.2.2 }, .storedTest,
      t.console.canonical, r.2.1, tail', byte', r.1, 0⟩ u → Statements len (.enter .start t) u := by
    intro u hu
    refine .step (if_neg hlen) (.step rfl (.step (if_neg hnone) ?_))
    obtain ⟨k, hk⟩ := hloop
    obtain ⟨m, hm⟩ := hu
    refine ⟨m + k, ?_⟩
    rw [Function.iterate_add_apply]
    refine (congrArg _ hk).trans hm
  by_cases hstored : r.1.length ≠ 0
  · rw [if_pos hstored]
    exact ⟨_, hstart (.step (if_pos hstored) (.refl _)), rfl, rfl⟩
  rw [if_neg hstored]
  have hnil : r.1 = [] := by simpa using hstored
  by_cases heof : t.console.canonical = true ∧ r.2.1 = true
  · rw [if_pos heof]
    refine ⟨_, hstart (.step (if_neg hstored) (.step (if_pos heof) (.refl _))), rfl, ?_⟩
    rw [← hnil]
    rfl
  · rw [if_neg heof]
    refine ⟨_, hstart (.step (if_neg hstored) (.step (if_neg heof) (.step rfl (.step rfl
      (.refl _))))), rfl, ?_⟩
    rw [consoleReadBlocked, if_neg (by simp), ← hnil]
    rfl

/-- The same for `console_wait_readable` without a timeout. -/
theorem wait_statements (t : Tty) : ∃ s, Statements len (.enter .waitTest t) s ∧
    s.place = .done ∧ (s.ret, s.tty) = consoleWaitReadable 0 false t := by
  unfold consoleWaitReadable
  by_cases hread : consoleCanRead t.console = true
  · rw [if_pos hread]
    exact ⟨_, .step (if_pos hread) (.refl _), rfl, rfl⟩
  · rw [if_neg hread]
    exact ⟨_, .step (if_neg hread) (.step rfl (.step rfl (.refl _))), rfl, rfl⟩

end Uninterrupted

/-! ## What the handler does -/

section Handler

variable {t : Tty}

/-- What can be read is a matter of the bytes, the counters and the mode. -/
def ConsoleView.canRead (v : ConsoleView) : Prop :=
  if v.canonical then v.lines ≠ 0 ∨ v.eofs ≠ 0 else v.contents ≠ []

theorem ConsoleView.canRead_canonical {v : ConsoleView} (h : v.canonical = true) :
    v.canRead ↔ v.lines ≠ 0 ∨ v.eofs ≠ 0 := by
  rw [ConsoleView.canRead, if_pos h]

theorem ConsoleView.canRead_raw {v : ConsoleView} (h : ¬ v.canonical = true) :
    v.canRead ↔ v.contents ≠ [] := by
  rw [ConsoleView.canRead, if_neg h]

theorem canRead_iff (c : Console) : consoleCanRead c = true ↔ c.view.canRead := by
  unfold consoleCanRead
  by_cases hmode : c.canonical = true
  · rw [if_pos hmode, ConsoleView.canRead_canonical (v := c.view) hmode, decide_eq_true_iff]
    rfl
  · rw [if_neg hmode, ConsoleView.canRead_raw (v := c.view) hmode, decide_eq_true_iff]
    change c.head ≠ c.tail ↔ c.contents ≠ []
    rw [ne_eq, ne_eq, Console.contents_eq_nil_iff, eq_comm]

@[simp] theorem echoDataChar_sched (ch : BitVec 8) (t : Tty) :
    (consoleEchoDataChar ch t).sched = t.sched := by
  unfold consoleEchoDataChar
  split_ifs <;> rfl

@[simp] theorem echoBackspace_sched (t : Tty) : (consoleEchoBackspace t).sched = t.sched := by
  unfold consoleEchoBackspace
  split_ifs <;> rfl

@[simp] theorem echoIntr_sched (t : Tty) : (consoleEchoIntr t).sched = t.sched := by
  unfold consoleEchoIntr
  split_ifs <;> rfl

@[simp] theorem erase_sched (n : ℕ) (t : Tty) : (consoleErase n t).sched = t.sched := by
  induction n generalizing t with
  | zero => rfl
  | succ n ih =>
    unfold consoleErase
    split
    · rfl
    · rw [ih, echoBackspace_sched]

/-- A byte that is stored wakes a reader; one that is dropped changes nothing to read. -/
theorem enqueueChar_cases (ch : BitVec 8) (doEcho : Bool) (t : Tty) :
    (consoleRxEnqueueChar ch doEcho t).sched = schedWaitqWakeOne .console t.sched ∨
    (consoleRxEnqueueChar ch doEcho t).sched = t.sched ∧
      (consoleRxEnqueueChar ch doEcho t).console.view = t.console.view := by
  by_cases hfull : t.console.head + 1 = t.console.tail
  · right
    rw [consoleRxEnqueueChar]
    dsimp only
    rw [if_pos hfull]
    exact ⟨rfl, rfl⟩
  · left
    rw [consoleRxEnqueueChar]
    dsimp only
    rw [if_neg hfull]
    cases doEcho with
    | true =>
      dsimp only
      rw [if_pos rfl, echoDataChar_sched]
    | false => rfl

theorem ConsoleView.canRead_of_fewer {v : ConsoleView} {xs : List (BitVec 8)}
    (hxs : xs ≠ [] → v.contents ≠ []) (h : { v with contents := xs }.canRead) : v.canRead := by
  change if v.canonical = true then v.lines ≠ 0 ∨ v.eofs ≠ 0 else xs ≠ [] at h
  unfold ConsoleView.canRead
  split_ifs at h ⊢
  · exact h
  · exact hxs h

/-- Editing makes nothing readable. -/
theorem ConsoleView.canRead_of_erase {v : ConsoleView} (h : v.erase.canRead) : v.canRead := by
  refine canRead_of_fewer (fun hne hnil => hne ?_) h
  rw [hnil]
  rfl

theorem ConsoleView.canRead_of_pop {v : ConsoleView} (h : v.pop.canRead) : v.canRead := by
  obtain ⟨-, hpop⟩ | ⟨xs, ch, -, hcontents, hpop⟩ := v.pop_cases
  · rwa [hpop] at h
  · rw [hpop] at h
    refine canRead_of_fewer (fun _ hnil => ?_) h
    rw [hcontents] at hnil
    simp at hnil

/-- A run of the handler wakes a reader, or it makes nothing readable. -/
theorem feed_cases (ch : BitVec 8) (t : Tty) :
    (consoleRxFeed ch t).sched = schedWaitqWakeOne .console t.sched ∨
    (consoleRxFeed ch t).sched = t.sched ∧
      ((consoleRxFeed ch t).console.view.canRead → t.console.view.canRead) := by
  have herase : (consoleErase consoleRxCap t).console.view = t.console.view.erase :=
    erase_view (le_trans t.console.contents_length_le (by decide))
  have henqueue : ∀ ch doEcho, (consoleRxEnqueueChar ch doEcho t).sched =
      schedWaitqWakeOne .console t.sched ∨ (consoleRxEnqueueChar ch doEcho t).sched = t.sched ∧
      ((consoleRxEnqueueChar ch doEcho t).console.view.canRead → t.console.view.canRead) := by
    intro ch doEcho
    obtain hwake | ⟨hsched, hview⟩ := enqueueChar_cases ch doEcho t
    · exact .inl hwake
    · exact .inr ⟨hsched, fun h => by rwa [hview] at h⟩
  unfold consoleRxFeed
  generalize (if ch = asciiCr then asciiLf else ch) = ch'
  dsimp only
  split_ifs
  · obtain hwake | ⟨hsched, hview⟩ := enqueueChar_cases asciiLf false
      (consoleEchoIntr (consoleErase consoleRxCap t))
    · rw [echoIntr_sched, erase_sched] at hwake
      exact .inl hwake
    · rw [echoIntr_sched, erase_sched] at hsched
      rw [echoIntr_console, herase] at hview
      exact .inr ⟨hsched, fun h => ConsoleView.canRead_of_erase (by rwa [hview] at h)⟩
  · exact .inr ⟨erase_sched _ t, fun h => ConsoleView.canRead_of_erase (by rwa [herase] at h)⟩
  · right
    rcases popLastEditable_cases t.console with ⟨hpop, -⟩ | ⟨c', b, hb, hpop, hview⟩
    · simp only [hpop]
      exact ⟨trivial, id⟩
    · simp only [hpop, echoBackspace_sched, echoBackspace_console]
      refine ⟨trivial, fun h => ?_⟩
      have hback : t.console.view.pop = c'.view := by
        rw [hview, ConsoleView.pop_concat _ hb]
        rfl
      rw [← hback] at h
      exact ConsoleView.canRead_of_pop h
  · exact henqueue _ _
  · exact .inr ⟨rfl, id⟩
  · exact henqueue _ _

/-- A line end or an end-of-file mark is stored. -/
def ConsoleView.HasMark (v : ConsoleView) : Prop := ∃ ch ∈ v.contents, isMark ch = true

/-- What the counters promise to a canonical reader is stored. -/
def ConsoleView.Backed (v : ConsoleView) : Prop :=
  v.canonical = true → v.lines ≠ 0 ∨ v.eofs ≠ 0 → v.HasMark

theorem mem_rdropWhile_editable {xs : List (BitVec 8)} {ch : BitVec 8} (hmem : ch ∈ xs)
    (hmark : isMark ch = true) : ch ∈ xs.rdropWhile editable := by
  induction xs using List.reverseRecOn with
  | nil => cases hmem
  | append_singleton xs b ih =>
    by_cases hb : editable b = true
    · rw [List.rdropWhile_concat_pos _ _ _ hb]
      refine ih ?_
      rw [List.mem_append, List.mem_singleton] at hmem
      obtain hmem | rfl := hmem
      · exact hmem
      · simp [editable, hmark] at hb
    · rwa [List.rdropWhile_concat_neg _ _ _ hb]

theorem ConsoleView.HasMark.erase {v : ConsoleView} (h : v.HasMark) : v.erase.HasMark := by
  obtain ⟨ch, hmem, hmark⟩ := h
  exact ⟨ch, mem_rdropWhile_editable hmem hmark, hmark⟩

theorem ConsoleView.HasMark.pop {v : ConsoleView} (h : v.HasMark) : v.pop.HasMark := by
  obtain ⟨-, hpop⟩ | ⟨xs, b, hb, hcontents, hpop⟩ := v.pop_cases
  · rwa [hpop]
  · obtain ⟨ch, hmem, hmark⟩ := h
    rw [hcontents, List.mem_append, List.mem_singleton] at hmem
    rw [hpop]
    obtain hmem | rfl := hmem
    · exact ⟨ch, hmem, hmark⟩
    · simp [editable, hmark] at hb

theorem ConsoleView.HasMark.push {v : ConsoleView} (h : v.HasMark) (ch : BitVec 8) :
    (v.push ch).HasMark := by
  obtain ⟨b, hmem, hmark⟩ := h
  unfold ConsoleView.push
  split_ifs
  · exact ⟨b, hmem, hmark⟩
  all_goals exact ⟨b, List.mem_append_left _ hmem, hmark⟩

/-- A counter changes only with a byte that is stored. -/
theorem ConsoleView.Backed.push {v : ConsoleView} (h : v.Backed) (ch : BitVec 8) :
    (v.push ch).Backed := by
  intro hmode hcount
  have hmode' : v.canonical = true := by
    unfold ConsoleView.canonical at hmode ⊢
    rwa [v.push_lflag] at hmode
  by_cases hmark : v.lines ≠ 0 ∨ v.eofs ≠ 0
  · exact (h hmode' hmark).push ch
  · rw [not_or, not_not, not_not] at hmark
    unfold ConsoleView.push at hcount ⊢
    by_cases hfull : v.contents.length = 255
    · rw [if_pos hfull] at hcount ⊢
      exact h hmode' hcount
    · rw [if_neg hfull] at hcount ⊢
      refine ⟨ch, List.mem_append_right _ (List.mem_singleton_self ch), ?_⟩
      dsimp only at hcount
      by_contra hother
      simp only [isMark, decide_eq_true_eq, not_or] at hother
      rw [if_neg hother.1, if_neg hother.2, hmark.1, hmark.2] at hcount
      simp at hcount

theorem feed_hasMark {v : ConsoleView} (h : v.HasMark) (ch : BitVec 8) : (v.feed ch).HasMark := by
  unfold ConsoleView.feed
  dsimp only
  generalize (if ch = asciiCr then asciiLf else ch) = ch'
  split_ifs
  · exact h.erase.push _
  · exact h.erase
  · exact h.pop
  · exact h.push _
  · exact h
  · exact h.push _

theorem feed_backed {v : ConsoleView} (h : v.Backed) (ch : BitVec 8) : (v.feed ch).Backed := by
  have herase : v.erase.Backed := fun hmode hcount => (h hmode hcount).erase
  have hpop : v.pop.Backed := by
    obtain ⟨-, hpop⟩ | ⟨xs, b, hb, hcontents, hpop⟩ := v.pop_cases
    · rwa [hpop]
    · intro hmode hcount
      rw [hpop] at hmode hcount
      exact (h hmode hcount).pop
  unfold ConsoleView.feed
  dsimp only
  generalize (if ch = asciiCr then asciiLf else ch) = ch'
  split_ifs
  · exact herase.push _
  · exact herase
  · exact hpop
  · exact h.push _
  · exact h
  · exact h.push _

theorem popLastEditable_tail (c : Console) : (consoleRxPopLastEditable c).2.tail = c.tail := by
  unfold consoleRxPopLastEditable
  dsimp only
  split_ifs <;> rfl

@[simp] theorem erase_tail (n : ℕ) (t : Tty) :
    (consoleErase n t).console.tail = t.console.tail := by
  induction n generalizing t with
  | zero => rfl
  | succ n ih =>
    have hpop := popLastEditable_tail t.console
    unfold consoleErase
    split
    · rfl
    · rename_i c heq
      rw [heq] at hpop
      rw [ih, echoBackspace_console]
      exact hpop

@[simp] theorem enqueueChar_tail (ch : BitVec 8) (doEcho : Bool) (t : Tty) :
    (consoleRxEnqueueChar ch doEcho t).console.tail = t.console.tail := by
  unfold consoleRxEnqueueChar
  dsimp only
  by_cases hfull : t.console.head + 1 = t.console.tail
  · rw [if_pos hfull]
  rw [if_neg hfull]
  cases doEcho with
  | true =>
    dsimp only
    rw [if_pos rfl, echoDataChar_console]
    dsimp only
    split_ifs <;> rfl
  | false =>
    dsimp only
    rw [if_neg (by simp)]
    dsimp only
    split_ifs <;> rfl

/-- The handler leaves the readers' end of the ring alone. -/
theorem feed_tail (ch : BitVec 8) (t : Tty) :
    (consoleRxFeed ch t).console.tail = t.console.tail := by
  unfold consoleRxFeed
  generalize (if ch = asciiCr then asciiLf else ch) = ch'
  dsimp only
  split_ifs
  · rw [enqueueChar_tail, echoIntr_console, erase_tail]
  · exact erase_tail _ t
  · have hpop := popLastEditable_tail t.console
    split
    · rfl
    · rename_i c heq
      rw [heq] at hpop
      rw [echoBackspace_console]
      exact hpop
  · exact enqueueChar_tail _ _ t
  · rfl
  · exact enqueueChar_tail _ _ t

end Handler

/-! ## The reader -/

section Reader

variable {i : TaskIdx} {t : Tty} {s : ReadCall} {len : BitVec 32}

/-- The task of slot `i` runs, and no other task waits for the console. -/
structure SoleReader (i : TaskIdx) (s : Sched) : Prop where
  queues : WaitqInv s
  current : s.currentIdx = i
  used : (s.tasks i).used = true
  active : (s.tasks i).isIdle = false
  sole : ∀ k, s.waitqs .console k = true → k = i

/-- The task of slot `i` is blocked on the console's queue. -/
def BlockedReader (i : TaskIdx) (s : Sched) : Prop :=
  (s.tasks i).waitq = some .console ∧ (s.tasks i).state = .blocked

/-- It is, although there is something to read. -/
def StuckReader (i : TaskIdx) (t : Tty) : Prop :=
  BlockedReader i t.sched ∧ consoleCanRead t.console = true

/-- Whatever a sole reader's state was, a wake-up does not leave it blocked. -/
theorem SoleReader.wakeOne {s : Sched} (h : SoleReader i s) :
    SoleReader i (schedWaitqWakeOne .console s) ∧
      ¬ BlockedReader i (schedWaitqWakeOne .console s) := by
  have hkept := tasksKept_wakeOne .console s
  have hqueues := h.queues.moves (moves_wakeOne .tick s .console s)
  by_cases hbit : s.waitqs .console i = true
  · obtain ⟨j, hj, htasks, hbits⟩ := h.queues.wakeOne hbit
    obtain rfl := h.sole j hj
    refine ⟨⟨hqueues, hkept.current.trans h.current, (hkept.slot j).used.trans h.used,
      (hkept.slot j).isIdle.trans h.active, fun k hk => h.sole k ?_⟩, fun hblocked => ?_⟩
    · rw [hbits] at hk
      split_ifs at hk
      exact hk
    · have hstate := hblocked.2
      rw [htasks, Function.update_self] at hstate
      cases hstate
  · have hnone : taskSlots.find? (s.waitqs .console) = none := by
      rw [List.find?_eq_none]
      intro k _ hk
      rw [h.sole k hk] at hk
      exact hbit hk
    have hsame : schedWaitqWakeOne .console s = s := by
      unfold schedWaitqWakeOne
      rw [hnone]
    rw [hsame]
    refine ⟨h, fun hblocked => hbit ?_⟩
    exact (h.queues.bit .console i).mpr hblocked.1

theorem SoleReader.sleep {s : Sched} (h : SoleReader i s) :
    SoleReader i (schedWaitqSleep .console 0 s) ∧
      BlockedReader i (schedWaitqSleep .console 0 s) := by
  obtain ⟨hqueues, rfl, hused, hactive, hsole⟩ := h
  have hkept := tasksKept_waitqSleep .console 0 s
  have htasks := schedWaitqSleep_tasks .console 0 hused hactive
  have hmoves : Moves (.call (.waitqSleep .console 0)) s s [] (schedWaitqSleep .console 0 s) :=
    moves_waitqSleep 0 rfl trivial (.inl rfl)
  have hqueues' := hqueues.moves hmoves
  refine ⟨⟨hqueues', hkept.current, (hkept.slot _).used.trans hused,
    (hkept.slot _).isIdle.trans hactive, fun k hk => ?_⟩, ?_⟩
  · by_contra hne
    have hslot := (hqueues'.bit .console k).mp hk
    rw [htasks, Function.update_of_ne hne] at hslot
    exact hne (hsole k ((hqueues.bit .console k).mpr hslot))
  · unfold BlockedReader
    rw [htasks, Function.update_self]
    exact ⟨rfl, rfl⟩

theorem SoleReader.feed (h : SoleReader i t.sched) (ch : BitVec 8) :
    SoleReader i (consoleRxFeed ch t).sched := by
  obtain hwake | ⟨hsame, -⟩ := feed_cases ch t
  · rw [hwake]
    exact h.wakeOne.1
  · rwa [hsame]

theorem SoleReader.awake_feed (h : SoleReader i t.sched) (hawake : ¬ BlockedReader i t.sched)
    (ch : BitVec 8) : ¬ BlockedReader i (consoleRxFeed ch t).sched := by
  obtain hwake | ⟨hsame, -⟩ := feed_cases ch t
  · rw [hwake]
    exact h.wakeOne.2
  · rwa [hsame]

theorem SoleReader.notStuck_feed (h : SoleReader i t.sched) (hfree : ¬ StuckReader i t)
    (ch : BitVec 8) : ¬ StuckReader i (consoleRxFeed ch t) := by
  rintro ⟨hblocked, hread⟩
  obtain hwake | ⟨hsame, hback⟩ := feed_cases ch t
  · rw [hwake] at hblocked
    exact h.wakeOne.2 hblocked
  · rw [hsame] at hblocked
    rw [canRead_iff] at hread
    exact hfree ⟨hblocked, (canRead_iff _).mpr (hback hread)⟩

/-- Between the test that found nothing to read and the sleep. -/
def ReadCall.Window (s : ReadCall) : Prop :=
  match s.place with
  | .nonblockTest | .sleep => True
  | .storedTest => s.dst = [] ∧ s.sawEof = false
  | .sawEofTest => s.sawEof = false
  | _ => False

/-- A byte arrives there that can be read. -/
def ReadCall.Missed (s : ReadCall) (l : ReadLabel) : Prop :=
  ∃ ch, l = .feed ch ∧ s.Window ∧ consoleCanRead (consoleRxFeed ch s.tty).console = true

/-- What the call knows at each of its statements. -/
def ReadCall.Sound (i : TaskIdx) (len : BitVec 32) (s : ReadCall) : Prop :=
  let v := s.tty.console.view
  let awake := ¬ BlockedReader i s.tty.sched
  match s.place with
  | .waitTest | .done => True
  | .start => s.sawEof = false ∧ v.Backed
  | .mode => s.sawEof = false ∧ v.Backed ∧ len ≠ 0
  | .countTest => s.canonical = v.canonical ∧ s.sawEof = false ∧ v.Backed ∧ len ≠ 0
  | .loopTest | .loadTail => s.canonical = v.canonical ∧ s.sawEof = false ∧
      (s.dst = [] → len ≠ 0) ∧ (s.canonical = true → awake ∧ (s.dst = [] → v.HasMark))
  | .emptyTest => s.canonical = v.canonical ∧ s.sawEof = false ∧ s.tail = s.tty.console.tail ∧
      (s.canonical = true → awake ∧ (s.dst = [] → v.HasMark))
  | .loadByte | .eofTest | .store => s.canonical = v.canonical ∧ s.sawEof = false ∧ awake
  | .eofCountTest | .eofCount | .eofTail | .sawEof => s.canonical = true ∧ awake
  | .lineTest | .lineCount | .lineMode | .lineTail | .advance =>
      s.canonical = v.canonical ∧ s.sawEof = false ∧ awake ∧ s.dst ≠ []
  | .storedTest => (s.sawEof = true → s.canonical = true) ∧
      (s.dst = [] → s.sawEof = false → ¬ v.canRead)
  | .sawEofTest => (s.sawEof = true → s.canonical = true) ∧ (s.sawEof = false → ¬ v.canRead)
  | .nonblockTest | .sleep => ¬ v.canRead

structure ReaderInv (i : TaskIdx) (len : BitVec 32) (s : ReadCall) : Prop where
  reader : SoleReader i s.tty.sched
  free : ¬ StuckReader i s.tty
  sound : s.Sound i len

/-- A run of the handler that is not missed. -/
theorem ReaderInv.feed (h : ReaderInv i len s) {ch : BitVec 8} (hseen : ¬ s.Missed (.feed ch)) :
    ReaderInv i len (s.step len (.feed ch)) := by
  obtain ⟨hreader, hfree, hsound⟩ := h
  refine ⟨hreader.feed ch, hreader.notStuck_feed hfree ch, ?_⟩
  have hview := feed_view ch s.tty
  have hmode : (consoleRxFeed ch s.tty).console.view.canonical = s.tty.console.view.canonical := by
    unfold ConsoleView.canonical
    rw [hview, ConsoleView.feed_lflag]
  have htail := feed_tail ch s.tty
  have hawake := fun hawake => hreader.awake_feed hawake ch
  have hbacked : s.tty.console.view.Backed → (consoleRxFeed ch s.tty).console.view.Backed :=
    fun h => hview ▸ feed_backed h ch
  have hmark : s.tty.console.view.HasMark → (consoleRxFeed ch s.tty).console.view.HasMark :=
    fun h => hview ▸ feed_hasMark h ch
  have hwindow : s.Window → ¬ (consoleRxFeed ch s.tty).console.view.canRead :=
    fun hin hread => hseen ⟨ch, rfl, hin, (canRead_iff _).mpr hread⟩
  obtain ⟨t, place, canonical, sawEof, tail, byte, dst, ret⟩ := s
  cases place with
  | waitTest | done => trivial
  | start => exact ⟨hsound.1, hbacked hsound.2⟩
  | mode => exact ⟨hsound.1, hbacked hsound.2.1, hsound.2.2⟩
  | countTest =>
    exact ⟨hsound.1.trans hmode.symm, hsound.2.1, hbacked hsound.2.2.1, hsound.2.2.2⟩
  | loopTest | loadTail =>
    refine ⟨hsound.1.trans hmode.symm, hsound.2.1, hsound.2.2.1, fun hcanonical => ?_⟩
    exact ⟨hawake (hsound.2.2.2 hcanonical).1,
      fun hdst => hmark ((hsound.2.2.2 hcanonical).2 hdst)⟩
  | emptyTest =>
    refine ⟨hsound.1.trans hmode.symm, hsound.2.1, hsound.2.2.1.trans htail.symm,
      fun hcanonical => ?_⟩
    exact ⟨hawake (hsound.2.2.2 hcanonical).1,
      fun hdst => hmark ((hsound.2.2.2 hcanonical).2 hdst)⟩
  | loadByte | eofTest | store =>
    exact ⟨hsound.1.trans hmode.symm, hsound.2.1, hawake hsound.2.2⟩
  | eofCountTest | eofCount | eofTail | sawEof => exact ⟨hsound.1, hawake hsound.2⟩
  | lineTest | lineCount | lineMode | lineTail | advance =>
    exact ⟨hsound.1.trans hmode.symm, hsound.2.1, hawake hsound.2.2.1, hsound.2.2.2⟩
  | storedTest => exact ⟨hsound.1, fun hdst heof => hwindow ⟨hdst, heof⟩⟩
  | sawEofTest => exact ⟨hsound.1, fun heof => hwindow heof⟩
  | nonblockTest | sleep => exact hwindow trivial

/-- A canonical reader that is promised something finds it. -/
theorem ConsoleView.HasMark.ne_nil {v : ConsoleView} (h : v.HasMark) : v.contents ≠ [] := by
  obtain ⟨ch, hmem, -⟩ := h
  exact List.ne_nil_of_mem hmem

theorem ReaderInv.next (h : ReaderInv i len s) : ReaderInv i len (s.next len) := by
  obtain ⟨hreader, hfree, hsound⟩ := h
  obtain ⟨t, place, canonical, sawEof, tail, byte, dst, ret⟩ := s
  -- A reader that is awake may change the console as it likes, and one that can read is awake.
  have hawakeFree : ∀ {c : Console}, ¬ BlockedReader i t.sched →
      ¬ StuckReader i { t with console := c } := fun hawake hstuck => hawake hstuck.1
  have hawake : t.console.view.canRead → ¬ BlockedReader i t.sched :=
    fun hread hblocked => hfree ⟨hblocked, (canRead_iff _).mpr hread⟩
  unfold ReadCall.next
  cases place with
  | waitTest =>
    dsimp only
    split_ifs with hread
    · exact ⟨hreader, hfree, trivial⟩
    · exact ⟨hreader, hfree, mt (canRead_iff _).mpr hread⟩
  | start =>
    dsimp only
    split_ifs with hlen
    · exact ⟨hreader, hfree, trivial⟩
    · exact ⟨hreader, hfree, hsound.1, hsound.2, hlen⟩
  | mode => exact ⟨hreader, hfree, rfl, hsound⟩
  | countTest =>
    obtain ⟨hmode, heof, hbacked, hlen⟩ := hsound
    change canonical = t.console.view.canonical at hmode
    dsimp only
    split_ifs with hnone
    · refine ⟨hreader, hfree, ?_⟩
      change ¬ t.console.view.canRead
      rw [ConsoleView.canRead_canonical (hmode.symm.trans hnone.1), not_or, not_not, not_not]
      exact hnone.2
    · refine ⟨hreader, hfree, hmode, heof, fun _ => hlen, fun hcanonical => ?_⟩
      have hcount : t.console.view.lines ≠ 0 ∨ t.console.view.eofs ≠ 0 := by
        by_contra hzero
        rw [not_or, not_not, not_not] at hzero
        exact hnone ⟨hcanonical, hzero⟩
      have hcan := hmode.symm.trans hcanonical
      have hread := (ConsoleView.canRead_canonical hcan).mpr hcount
      exact ⟨hawake hread, fun _ => hbacked hcan hcount⟩
  | loopTest =>
    dsimp only
    split_ifs with hroom
    · exact ⟨hreader, hfree, hsound⟩
    · refine ⟨hreader, hfree, ?_, fun hdst _ => absurd ?_ (hsound.2.2.1 hdst)⟩
      · intro heof
        cases heof.symm.trans hsound.2.1
      · change dst = [] at hdst
        rw [hdst] at hroom
        exact BitVec.eq_of_toNat_eq (Nat.le_zero.mp (not_lt.mp hroom))
  | loadTail => exact ⟨hreader, hfree, hsound.1, hsound.2.1, rfl, hsound.2.2.2⟩
  | emptyTest =>
    obtain ⟨hmode, heof, htail, hcanonical⟩ := hsound
    change canonical = t.console.view.canonical at hmode
    change tail = t.console.tail at htail
    have hnil : t.console.view.contents = [] ↔ tail = t.console.head := by
      rw [htail]
      exact Console.contents_eq_nil_iff
    dsimp only
    split_ifs with hempty
    · refine ⟨hreader, hfree, fun hsaw => ?_, fun hdst _ hread => ?_⟩
      · cases hsaw.symm.trans heof
      · by_cases hcan : canonical = true
        · exact ((hcanonical hcan).2 hdst).ne_nil (hnil.mpr hempty)
        · exact (ConsoleView.canRead_raw (hmode ▸ hcan)).mp hread (hnil.mpr hempty)
    · refine ⟨hreader, hfree, hmode, heof, ?_⟩
      by_cases hcan : canonical = true
      · exact (hcanonical hcan).1
      · refine hawake ((ConsoleView.canRead_raw (hmode ▸ hcan)).mpr ?_)
        exact fun hcontra => hempty (hnil.mp hcontra)
  | loadByte => exact ⟨hreader, hfree, hsound⟩
  | eofTest =>
    dsimp only
    split_ifs with heof
    · exact ⟨hreader, hfree, heof.1, hsound.2.2⟩
    · exact ⟨hreader, hfree, hsound⟩
  | eofCountTest =>
    dsimp only
    split_ifs
    · exact ⟨hreader, hfree, hsound⟩
    · exact ⟨hreader, hfree, hsound⟩
  | eofCount => exact ⟨hreader, hawakeFree hsound.2, hsound⟩
  | eofTail => exact ⟨hreader, hawakeFree hsound.2, hsound⟩
  | sawEof =>
    refine ⟨hreader, hfree, fun _ => hsound.1, fun _ hcontra => ?_⟩
    cases hcontra
  | store =>
    refine ⟨hreader, hfree, hsound.1, hsound.2.1, hsound.2.2, ?_⟩
    simp
  | lineTest =>
    dsimp only
    split_ifs
    · exact ⟨hreader, hfree, hsound⟩
    · exact ⟨hreader, hfree, hsound⟩
  | lineCount => exact ⟨hreader, hawakeFree hsound.2.2.1, hsound⟩
  | lineMode =>
    dsimp only
    split_ifs
    · exact ⟨hreader, hfree, hsound⟩
    · exact ⟨hreader, hfree, hsound⟩
  | lineTail =>
    refine ⟨hreader, hawakeFree hsound.2.2.1, ?_, fun hdst => absurd hdst hsound.2.2.2⟩
    intro heof
    cases heof.symm.trans hsound.2.1
  | advance =>
    refine ⟨hreader, hawakeFree hsound.2.2.1, hsound.1, hsound.2.1,
      fun hdst => absurd hdst hsound.2.2.2, fun _ => ?_⟩
    exact ⟨hsound.2.2.1, fun hdst => absurd hdst hsound.2.2.2⟩
  | storedTest =>
    dsimp only
    split_ifs with hstored
    · exact ⟨hreader, hfree, trivial⟩
    · have hdst : dst = [] := by simpa using hstored
      exact ⟨hreader, hfree, hsound.1, hsound.2 hdst⟩
  | sawEofTest =>
    dsimp only
    split_ifs with heof
    · exact ⟨hreader, hfree, trivial⟩
    · refine ⟨hreader, hfree, hsound.2 ?_⟩
      by_contra hsaw
      have hsaw' : sawEof = true := by simpa using hsaw
      exact heof ⟨hsound.1 hsaw', hsaw'⟩
  | nonblockTest => exact ⟨hreader, hfree, hsound⟩
  | sleep =>
    obtain ⟨hreader', -⟩ := hreader.sleep
    refine ⟨hreader', ?_, trivial⟩
    rintro ⟨-, hread⟩
    exact hsound ((canRead_iff _).mp hread)
  | done => exact ⟨hreader, hfree, trivial⟩

/-- No byte is missed by the run. -/
def attentiveReader (len : BitVec 32) : System ReadCall ReadLabel :=
  (consoleReader len).restrict fun s l => ¬ s.Missed l

theorem ReaderInv.run {s' : ReadCall} {ls : List ReadLabel} (h : ReaderInv i len s)
    (hrun : Run (attentiveReader len) s ls s') : ReaderInv i len s' := by
  refine hrun.keeps ?_ h
  rintro u l _ hu ⟨hseen, rfl⟩
  cases l with
  | statement => exact hu.next
  | feed ch => exact hu.feed hseen

theorem Statements.run {s' : ReadCall} (h : Statements len s s') :
    ∃ ls, Run (consoleReader len) s ls s' := by
  obtain ⟨k, rfl⟩ := h
  induction k generalizing s with
  | zero => exact ⟨[], .nil⟩
  | succ k ih =>
    obtain ⟨ls, hrun⟩ := ih (s := s.next len)
    exact ⟨.statement :: ls, hrun.cons rfl⟩

/-- The only statement that reaches the scheduler is the last one. -/
theorem next_sched (len : BitVec 32) (s : ReadCall) :
    (s.next len).tty.sched = s.tty.sched ∨
      (s.next len).tty.sched = schedWaitqSleep .console 0 s.tty.sched := by
  obtain ⟨t, place, canonical, sawEof, tail, byte, dst, ret⟩ := s
  unfold ReadCall.next
  cases place with
  | sleep => exact .inr rfl
  | waitTest | start | countTest | loopTest | emptyTest | eofTest | eofCountTest | lineTest
  | lineMode | storedTest | sawEofTest =>
    left
    dsimp only
    split_ifs <;> rfl
  | _ => exact .inl rfl

/-- Whatever is missed, the reader stays the only one. -/
theorem SoleReader.run {s' : ReadCall} {ls : List ReadLabel} (h : SoleReader i s.tty.sched)
    (hrun : Run (consoleReader len) s ls s') : SoleReader i s'.tty.sched := by
  refine Run.keeps (P := fun s => SoleReader i s.tty.sched) (fun u l u' hu hstep => ?_) h hrun
  obtain rfl : u' = u.step len l := hstep
  cases l with
  | statement =>
    change SoleReader i (u.next len).tty.sched
    obtain hsame | hsleep := next_sched len u
    · rwa [hsame]
    · rw [hsleep]
      exact hu.sleep.1
  | feed ch => exact hu.feed ch

/-- A missed byte puts the reader to sleep on it. -/
theorem missed_is_stuck {ch : BitVec 8} (hreader : SoleReader i s.tty.sched)
    (hmissed : s.Missed (.feed ch)) :
    ∃ s', Statements len (s.step len (.feed ch)) s' ∧ s'.place = .done ∧
      StuckReader i s'.tty := by
  obtain ⟨_, hch, hwindow, hread⟩ := hmissed
  cases hch
  have hasleep := (hreader.feed ch).sleep.2
  obtain ⟨t, place, canonical, sawEof, tail, byte, dst, ret⟩ := s
  have heof : sawEof = false → ¬ (canonical = true ∧ sawEof = true) := by
    rintro hsaw ⟨-, hsaw'⟩
    cases hsaw'.symm.trans hsaw
  cases place with
  | nonblockTest => exact ⟨_, .step rfl (.step rfl (.refl _)), rfl, hasleep, hread⟩
  | sleep => exact ⟨_, .step rfl (.refl _), rfl, hasleep, hread⟩
  | sawEofTest =>
    exact ⟨_, .step (if_neg (heof hwindow)) (.step rfl (.step rfl (.refl _))), rfl, hasleep, hread⟩
  | storedTest =>
    have hdst : ¬ dst.length ≠ 0 := by
      rw [show dst = [] from hwindow.1]
      simp
    exact ⟨_, .step (if_neg hdst) (.step (if_neg (heof hwindow.2)) (.step rfl (.step rfl
      (.refl _)))), rfl, hasleep, hread⟩
  | _ => exact hwindow.elim

/-- Counters that promise what is not stored put a canonical reader to sleep: the handler
erases the line, and the read finds the ring empty. -/
theorem unbacked_is_stuck (hreader : SoleReader i t.sched) (hlen : len ≠ 0)
    (hunbacked : ¬ t.console.view.Backed) :
    ∃ s', Statements len ((ReadCall.enter .start t).step len (.feed ttyCcVkill)) s' ∧
      s'.place = .done ∧ StuckReader i s'.tty := by
  unfold ConsoleView.Backed at hunbacked
  rw [Classical.not_imp, Classical.not_imp] at hunbacked
  obtain ⟨hmode, hcount, hmark⟩ := hunbacked
  have hview : (consoleRxFeed ttyCcVkill t).console.view = t.console.view.erase := by
    have hkill : (if ttyCcVkill = asciiCr then asciiLf else ttyCcVkill) = ttyCcVkill := by decide
    rw [feed_view]
    unfold ConsoleView.feed
    dsimp only
    rw [hkill, if_neg fun h => absurd h.1 (by decide), if_pos ⟨hmode, rfl⟩]
  have hnil : t.console.view.erase.contents = [] := by
    refine List.rdropWhile_eq_nil_iff.mpr fun ch hmem => ?_
    unfold editable
    rw [Bool.not_eq_true', ← Bool.not_eq_true]
    exact fun hch => hmark ⟨ch, hmem, hch⟩
  have hasleep := (hreader.feed ttyCcVkill).sleep.2
  change ∃ s', Statements len (.enter .start (consoleRxFeed ttyCcVkill t)) s' ∧ _
  generalize consoleRxFeed ttyCcVkill t = u at hview hasleep ⊢
  have hcount' : ¬ (u.console.canonical = true ∧ u.console.lines = 0 ∧ u.console.eofs = 0) := by
    rintro ⟨-, hzero⟩
    have hlines : u.console.lines = t.console.view.lines := congrArg ConsoleView.lines hview
    have heofs : u.console.eofs = t.console.view.eofs := congrArg ConsoleView.eofs hview
    rw [hlines, heofs] at hzero
    exact hcount.elim (fun h => h hzero.1) fun h => h hzero.2
  have hread : consoleCanRead u.console = true := by
    rw [canRead_iff, hview]
    exact (ConsoleView.canRead_canonical (v := t.console.view.erase) hmode).mpr hcount
  have hempty : u.console.tail = u.console.head := by
    rw [← Console.contents_eq_nil_iff, ← hnil]
    exact congrArg ConsoleView.contents hview
  have hloop : consoleReadLoop u.console.canonical len.toNat u.console =
      ([], false, u.console) := by
    obtain ⟨n, hn⟩ := Nat.exists_eq_succ_of_ne_zero
      fun hzero : len.toNat = 0 => hlen (BitVec.eq_of_toNat_eq hzero)
    rw [hn, consoleReadLoop, if_pos hempty]
  obtain ⟨s', hstatements, hdone, hret⟩ := @read_statements len u
  rw [consoleRead_of_some hlen hcount' hloop] at hret
  have htty : s'.tty = { u with sched := schedWaitqSleep .console 0 u.sched } := by
    rw [if_neg (by simp), if_neg (by simp)] at hret
    exact congrArg (fun r => r.2.2) hret
  refine ⟨s', hstatements, hdone, ?_⟩
  rw [htty]
  exact ⟨hasleep, hread⟩

/-- A call begins where its counters promise nothing that is not stored. -/
def ReadPlace.Entry (place : ReadPlace) (t : Tty) : Prop :=
  place = .start ∧ t.console.view.Backed ∨ place = .waitTest

/-- A sole reader that misses no byte never sleeps on one. One that misses a byte does, and
so does one that believes a counter. Without interrupts the statements compute the two calls
(`read_statements`, `wait_statements`). -/
theorem sleeps_on_missed_byte_only (hreader : SoleReader i t.sched) :
    (¬ StuckReader i t → ∀ {place : ReadPlace}, place.Entry t → ∀ {ls : List ReadLabel}
      {s : ReadCall}, Run (attentiveReader len) (.enter place t) ls s → ¬ StuckReader i s.tty) ∧
    (∀ {place : ReadPlace} {ls : List ReadLabel} {s : ReadCall} {ch : BitVec 8},
      Run (consoleReader len) (.enter place t) ls s → s.Missed (.feed ch) → ∃ s',
        Statements len (s.step len (.feed ch)) s' ∧ s'.place = .done ∧ StuckReader i s'.tty) ∧
    (len ≠ 0 → ¬ t.console.view.Backed →
      ∃ s', Statements len ((ReadCall.enter .start t).step len (.feed ttyCcVkill)) s' ∧
        s'.place = .done ∧ StuckReader i s'.tty) := by
  refine ⟨fun hfree place hentry ls s hrun => ?_,
    fun hrun => missed_is_stuck (SoleReader.run hreader hrun), unbacked_is_stuck hreader⟩
  have hinv : ReaderInv i len (.enter place t) := by
    refine ⟨hreader, hfree, ?_⟩
    obtain ⟨rfl, hbacked⟩ | rfl := hentry
    · exact ⟨rfl, hbacked⟩
    · trivial
  exact (hinv.run hrun).free

/-- The first task to run, about to read a console that has received nothing. -/
def firstReader : Tty where
  console := (consoleInit ⟨⟨fun _ => 0, 0, 0, 0, 0, 0, 0⟩, schedInit, []⟩).console
  sched := schedRunEnter (schedSpawn (some 1) schedInit).2
  screen := []

theorem firstReader_sole : SoleReader 1 firstReader.sched := by
  have hinit : Reachable schedOps schedInit := .of_init rfl
  have hspawn := reachable_op hinit (.call (.spawn (some 1))) trivial
  have hselect := reachable_op hspawn .select trivial
  refine ⟨reachable_waitqInv hselect, ?_, ?_, ?_, ?_⟩
  all_goals decide

/-- It finds nothing to read, and then a line arrives. -/
theorem firstReader_misses :
    ((ReadCall.enter .waitTest firstReader).next 1).Missed (.feed asciiLf) := by
  have hnone : ¬ consoleCanRead firstReader.console = true := by decide
  have hnext : (ReadCall.enter .waitTest firstReader).next 1 =
      (ReadCall.enter .waitTest firstReader).goto .nonblockTest := by
    unfold ReadCall.next
    exact if_neg hnone
  rw [hnext]
  refine ⟨asciiLf, rfl, trivial, ?_⟩
  change consoleCanRead (consoleRxFeed asciiLf firstReader).console = true
  decide

/-- A line that arrives before the test leaves the reader awake; one that arrives after it
does not. -/
theorem first_reader_sleeps_on_missed_line :
    ¬ StuckReader 1 (consoleRxFeed asciiLf firstReader) ∧
    ∃ s', Statements 1 (((ReadCall.enter .waitTest firstReader).next 1).step 1 (.feed asciiLf)) s' ∧
      s'.place = .done ∧ StuckReader 1 s'.tty := by
  obtain ⟨hfree, hmissed, -⟩ := @sleeps_on_missed_byte_only 1 firstReader 1 firstReader_sole
  have hawake : ¬ StuckReader 1 firstReader := fun h => absurd h.1.2 (by decide)
  have hstep : (attentiveReader 1).step (.enter .waitTest firstReader) (.feed asciiLf)
      (.enter .waitTest (consoleRxFeed asciiLf firstReader)) := by
    refine ⟨?_, rfl⟩
    rintro ⟨_, -, hwindow, -⟩
    exact hwindow
  have hrun : Run (consoleReader 1) (.enter .waitTest firstReader) [.statement]
      ((ReadCall.enter .waitTest firstReader).next 1) := Run.nil.snoc rfl
  exact ⟨hfree hawake (.inr rfl) (Run.nil.snoc hstep), hmissed hrun firstReader_misses⟩

/-- A reader tests for a line, receives one and goes to sleep. -/
theorem console_wakeup_lost : ¬ ∀ (i : TaskIdx) (len : BitVec 32) (place : ReadPlace) (t : Tty),
    SoleReader i t.sched → ¬ StuckReader i t → place = .start ∨ place = .waitTest →
    ∀ ls s, Run (consoleReader len) (.enter place t) ls s → s.place = .done →
      ¬ StuckReader i s.tty := by
  intro h
  have hawake : ¬ StuckReader 1 firstReader := fun h => absurd h.1.2 (by decide)
  have htest : Run (consoleReader 1) (.enter .waitTest firstReader) [.statement]
      ((ReadCall.enter .waitTest firstReader).next 1) := Run.nil.snoc rfl
  have hsole : SoleReader 1 (ReadCall.enter .waitTest firstReader).tty.sched := firstReader_sole
  obtain ⟨s, hstatements, hdone, hstuck⟩ :=
    @missed_is_stuck 1 _ 1 asciiLf (hsole.run htest) firstReader_misses
  obtain ⟨ls, hrest⟩ := hstatements.run
  have hline : Run (consoleReader 1) (.enter .waitTest firstReader) [.statement, .feed asciiLf]
      (((ReadCall.enter .waitTest firstReader).next 1).step 1 (.feed asciiLf)) := htest.snoc rfl
  exact h 1 1 .waitTest firstReader firstReader_sole hawake (.inr rfl) _ s (hline.trans hrest)
    hdone hstuck

end Reader

end LampVm
