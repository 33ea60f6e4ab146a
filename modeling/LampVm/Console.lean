import Mathlib.Data.List.DropRight
import LampVm.Ring
import LampVm.Sched

/-!
# The kernel's console

`kernel/src/console.c`: a ring of 256 bytes between the interrupt handler, which feeds
it, and the readers. In canonical mode the end that is fed is also edited, and two
counters, of line ends and of end-of-file marks, decide what may be read. Each function
comes with what it does to the list of bytes in the ring.
-/
namespace LampVm

abbrev consoleRxCap : ℕ := 256

instance : NeZero consoleRxCap := ⟨by decide⟩

abbrev consoleIoOk : ℤ := 0
abbrev consoleIoBlocked : ℤ := -1

abbrev ttyLflagEcho : BitVec 32 := 1
abbrev ttyLflagIcanon : BitVec 32 := 2
abbrev ttyLflagIsig : BitVec 32 := 4
abbrev ttyLflagSupported : BitVec 32 := ttyLflagEcho ||| ttyLflagIcanon ||| ttyLflagIsig

abbrev ttyCcVintr : BitVec 8 := 0x03
abbrev ttyCcVeof : BitVec 8 := 0x04
abbrev ttyCcVeraseBs : BitVec 8 := 0x08
abbrev ttyCcVeraseDel : BitVec 8 := 0x7F
abbrev ttyCcVkill : BitVec 8 := 0x15

abbrev asciiLf : BitVec 8 := 0x0A
abbrev asciiCr : BitVec 8 := 0x0D

/-- The variables of the receive side. The indices are masked whenever they are
stored. -/
structure Console where
  buf : Fin consoleRxCap → BitVec 8
  head : Fin consoleRxCap
  tail : Fin consoleRxCap
  dropped : BitVec 32
  lines : BitVec 32
  eofs : BitVec 32
  lflag : BitVec 32

/-- The console with what its functions act on: the scheduler, for its wait queue, and
the characters sent to the screen, the latest first. -/
structure Tty where
  console : Console
  sched : Sched
  screen : List (BitVec 8)

def Console.canonical (c : Console) : Bool := c.lflag &&& ttyLflagIcanon ≠ 0

/-! ## Echo -/

def consoleFbPutc (ch : BitVec 8) (t : Tty) : Tty := { t with screen := ch :: t.screen }

def consoleEchoDataChar (ch : BitVec 8) (t : Tty) : Tty :=
  if t.console.lflag &&& ttyLflagEcho = 0 then t
  else if ch = 0x07 ∨ ch = asciiLf ∨ ch = asciiCr ∨ ch = 0x09 ∨ ch = 0x0B ∨ ch = 0x0C ∨
      (0x20 ≤ ch ∧ ch ≤ 0x7E) then consoleFbPutc ch t
  else t

def consoleEchoBackspace (t : Tty) : Tty :=
  if t.console.lflag &&& ttyLflagEcho = 0 then t else consoleFbPutc 0x08 t

def consoleEchoIntr (t : Tty) : Tty :=
  if t.console.lflag &&& ttyLflagEcho = 0 then t
  else consoleFbPutc asciiLf (consoleFbPutc 0x43 (consoleFbPutc 0x5E t))

/-! ## Feeding -/

def consoleRxPopLastEditable (c : Console) : Bool × Console :=
  if c.head = c.tail then (false, c)
  else
    let prev := c.head - 1
    if c.buf prev = asciiLf ∨ c.buf prev = ttyCcVeof then (false, c)
    else (true, { c with head := prev })

def consoleRxEnqueueChar (ch : BitVec 8) (doEcho : Bool) (t : Tty) : Tty :=
  let c := t.console
  let next := c.head + 1
  if next = c.tail then { t with console := { c with dropped := c.dropped + 1 } }
  else
    let c := { c with buf := Function.update c.buf c.head ch, head := next }
    let c :=
      if ch = asciiLf then { c with lines := c.lines + 1 }
      else if ch = ttyCcVeof then { c with eofs := c.eofs + 1 }
      else c
    let t := { t with console := c }
    let t := if doEcho then consoleEchoDataChar ch t else t
    { t with sched := schedWaitqWakeOne .console t.sched }

def consoleInit (t : Tty) : Tty where
  console := { t.console with
    head := 0, tail := 0, dropped := 0, lines := 0, eofs := 0
    lflag := ttyLflagEcho ||| ttyLflagIcanon ||| ttyLflagIsig }
  sched := schedWaitqInit .console t.sched
  screen := t.screen

/-- `while (console_rx_pop_last_editable()) console_echo_backspace()`. Every iteration
takes a byte from the ring, so the loop ends within as many iterations as the ring
holds bytes. -/
def consoleErase : ℕ → Tty → Tty
  | 0, t => t
  | n + 1, t =>
    match consoleRxPopLastEditable t.console with
    | (false, _) => t
    | (true, c) => consoleErase n (consoleEchoBackspace { t with console := c })

def consoleRxFeed (ch : BitVec 8) (t : Tty) : Tty :=
  let canonical := t.console.canonical
  let ch := if ch = asciiCr then asciiLf else ch
  if ch = ttyCcVintr ∧ t.console.lflag &&& ttyLflagIsig ≠ 0 then
    consoleRxEnqueueChar asciiLf false (consoleEchoIntr (consoleErase consoleRxCap t))
  else if canonical ∧ ch = ttyCcVkill then consoleErase consoleRxCap t
  else if canonical ∧ (ch = ttyCcVeraseBs ∨ ch = ttyCcVeraseDel) then
    match consoleRxPopLastEditable t.console with
    | (false, _) => t
    | (true, c) => consoleEchoBackspace { t with console := c }
  else if canonical ∧ ch = ttyCcVeof then consoleRxEnqueueChar ch false t
  else if ch = 0 then t
  else consoleRxEnqueueChar ch true t

/-! ## Reading -/

def consoleCanRead (c : Console) : Bool :=
  if c.canonical then c.lines ≠ 0 ∨ c.eofs ≠ 0 else c.head ≠ c.tail

def consoleWaitReadable (timeoutTicks : BitVec 32) (nonblock : Bool) (t : Tty) : ℤ × Tty :=
  if consoleCanRead t.console then (consoleIoOk, t)
  else if nonblock then (0, t)
  else (consoleIoBlocked, { t with sched := schedWaitqSleep .console timeoutTicks t.sched })

def consoleTtySetLflag (lflag : BitVec 32) (t : Tty) : Tty :=
  { t with console := { t.console with lflag := lflag &&& ttyLflagSupported } }

/-- The loop of `console_read` with room for `n` more bytes: the bytes it stores, whether
it saw an end-of-file mark, and the console. -/
def consoleReadLoop (canonical : Bool) : ℕ → Console → List (BitVec 8) × Bool × Console
  | 0, c => ([], false, c)
  | n + 1, c =>
    if c.tail = c.head then ([], false, c)
    else
      let ch := c.buf c.tail
      if canonical ∧ ch = ttyCcVeof then
        let eofs := if c.eofs ≠ 0 then c.eofs - 1 else c.eofs
        ([], true, { c with eofs := eofs, tail := c.tail + 1 })
      else if ch = asciiLf ∧ c.lines ≠ 0 then
        if canonical then ([ch], false, { c with lines := c.lines - 1, tail := c.tail + 1 })
        else
          let r := consoleReadLoop canonical n { c with lines := c.lines - 1, tail := c.tail + 1 }
          (ch :: r.1, r.2)
      else
        let r := consoleReadLoop canonical n { c with tail := c.tail + 1 }
        (ch :: r.1, r.2)

/-- The end of a read that found nothing. -/
def consoleReadBlocked (nonblock : Bool) (t : Tty) : ℤ × List (BitVec 8) × Tty :=
  if nonblock then (0, [], t)
  else (consoleIoBlocked, [], { t with sched := schedWaitqSleep .console 0 t.sched })

/-- `console_read` into a buffer of `len` bytes: the return code, the bytes stored, and
the state. -/
def consoleRead (len : BitVec 32) (nonblock : Bool) (t : Tty) : ℤ × List (BitVec 8) × Tty :=
  let canonical := t.console.canonical
  if len = 0 then (0, [], t)
  else if canonical ∧ t.console.lines = 0 ∧ t.console.eofs = 0 then consoleReadBlocked nonblock t
  else
    let (bytes, sawEof, c) := consoleReadLoop canonical len.toNat t.console
    let t := { t with console := c }
    if bytes.length ≠ 0 then (bytes.length, bytes, t)
    else if canonical ∧ sawEof then (0, [], t)
    else consoleReadBlocked nonblock t

section ReadEquations

variable {len : BitVec 32} {t : Tty}

@[simp] theorem readBlocked_bytes (nonblock : Bool) (t : Tty) :
    (consoleReadBlocked nonblock t).2.1 = [] := by
  cases nonblock <;> rfl

@[simp] theorem readBlocked_console (nonblock : Bool) (t : Tty) :
    (consoleReadBlocked nonblock t).2.2.console = t.console := by
  cases nonblock <;> rfl

theorem consoleRead_of_none (hlen : len ≠ 0)
    (hnone : t.console.canonical = true ∧ t.console.lines = 0 ∧ t.console.eofs = 0)
    (nonblock : Bool) : consoleRead len nonblock t = consoleReadBlocked nonblock t := by
  simp only [consoleRead, if_neg hlen, if_pos hnone]

theorem consoleRead_of_some (hlen : len ≠ 0)
    (hsome : ¬ (t.console.canonical = true ∧ t.console.lines = 0 ∧ t.console.eofs = 0))
    {bytes : List (BitVec 8)} {sawEof : Bool} {c : Console}
    (hrun : consoleReadLoop t.console.canonical len.toNat t.console = (bytes, sawEof, c))
    (nonblock : Bool) :
    consoleRead len nonblock t =
      if bytes.length ≠ 0 then ((bytes.length : ℤ), bytes, { t with console := c })
      else if t.console.canonical = true ∧ sawEof = true then (0, [], { t with console := c })
      else consoleReadBlocked nonblock { t with console := c } := by
  simp only [consoleRead, if_neg hlen, if_neg hsome, hrun]

end ReadEquations

/-! ## The bytes in the ring -/

def Console.contents (c : Console) : List (BitVec 8) := Ring.contents c.buf c.tail c.head

/-- Bytes that editing does not cross. -/
def isMark (ch : BitVec 8) : Bool := ch = asciiLf ∨ ch = ttyCcVeof

/-- The bytes of a fragment that is still being edited. -/
def editable (ch : BitVec 8) : Bool := !isMark ch

/-- What the functions do is determined by the bytes, the counters and the mode. -/
structure ConsoleView where
  contents : List (BitVec 8)
  lines : BitVec 32
  eofs : BitVec 32
  lflag : BitVec 32

def Console.view (c : Console) : ConsoleView := ⟨c.contents, c.lines, c.eofs, c.lflag⟩

def ConsoleView.canonical (v : ConsoleView) : Bool := v.lflag &&& ttyLflagIcanon ≠ 0

/-- Giving up the last byte if it may be edited. -/
def ConsoleView.pop (v : ConsoleView) : ConsoleView :=
  if v.contents.rdropWhile editable = v.contents then v
  else { v with contents := v.contents.dropLast }

/-- Giving up every byte that may be edited. -/
def ConsoleView.erase (v : ConsoleView) : ConsoleView :=
  { v with contents := v.contents.rdropWhile editable }

/-- Storing a byte and counting it. -/
def ConsoleView.push (v : ConsoleView) (ch : BitVec 8) : ConsoleView :=
  if v.contents.length = 255 then v
  else
    { v with
      contents := v.contents ++ [ch]
      lines := if ch = asciiLf then v.lines + 1 else v.lines
      eofs := if ch = ttyCcVeof then v.eofs + 1 else v.eofs }

/-- `console_rx_feed` on the list of bytes. -/
def ConsoleView.feed (v : ConsoleView) (ch : BitVec 8) : ConsoleView :=
  let ch := if ch = asciiCr then asciiLf else ch
  if ch = ttyCcVintr ∧ v.lflag &&& ttyLflagIsig ≠ 0 then v.erase.push asciiLf
  else if v.canonical ∧ ch = ttyCcVkill then v.erase
  else if v.canonical ∧ (ch = ttyCcVeraseBs ∨ ch = ttyCcVeraseDel) then v.pop
  else if v.canonical ∧ ch = ttyCcVeof then v.push ch
  else if ch = 0 then v
  else v.push ch

section Feed

variable {c : Console} {t : Tty}

theorem Console.contents_length_le (c : Console) : c.contents.length ≤ 255 := by
  rw [Console.contents, Ring.length_contents]
  exact Nat.le_of_lt_succ (Ring.size_lt c.tail c.head)

theorem Console.full_iff : c.head + 1 = c.tail ↔ c.contents.length = 255 := by
  rw [Console.contents, Ring.length_contents]
  exact Ring.size_eq_iff_full.symm

/-- Either there is nothing to give up, or the last byte goes. -/
theorem popLastEditable_cases (c : Console) :
    (consoleRxPopLastEditable c = (false, c) ∧ c.contents.rdropWhile editable = c.contents) ∨
    ∃ c' ch, editable ch = true ∧ consoleRxPopLastEditable c = (true, c') ∧
      c.view = { c'.view with contents := c'.contents ++ [ch] } := by
  by_cases hempty : c.head = c.tail
  · refine .inl ⟨if_pos hempty, ?_⟩
    rw [Console.contents, hempty, Ring.contents_self]
    rfl
  · have hback : c.contents = _ ++ [c.buf (c.head - 1)] := Ring.contents_back (Ne.symm hempty)
    by_cases hmark : c.buf (c.head - 1) = asciiLf ∨ c.buf (c.head - 1) = ttyCcVeof
    · have hlast : ¬ editable (c.buf (c.head - 1)) = true := by
        rcases hmark with h | h <;> rw [h] <;> decide
      refine .inl ⟨?_, ?_⟩
      · simp only [consoleRxPopLastEditable, if_neg hempty, if_pos hmark]
      · rw [hback]
        exact List.rdropWhile_concat_neg _ _ _ hlast
    · have hlast : editable (c.buf (c.head - 1)) = true := by
        rw [editable, isMark, decide_eq_false hmark]
        rfl
      refine .inr ⟨{ c with head := c.head - 1 }, _, hlast, ?_, ?_⟩
      · simp only [consoleRxPopLastEditable, if_neg hempty, if_neg hmark]
      · simp only [Console.view, hback]
        rfl

/-- Echo leaves the console alone. -/
@[simp] theorem echoDataChar_console (ch : BitVec 8) (t : Tty) :
    (consoleEchoDataChar ch t).console = t.console := by
  unfold consoleEchoDataChar
  split_ifs <;> rfl

@[simp] theorem echoBackspace_console (t : Tty) :
    (consoleEchoBackspace t).console = t.console := by
  unfold consoleEchoBackspace
  split_ifs <;> rfl

@[simp] theorem echoIntr_console (t : Tty) : (consoleEchoIntr t).console = t.console := by
  unfold consoleEchoIntr
  split_ifs <;> rfl

theorem erase_view {n : ℕ} (hn : t.console.contents.length ≤ n) :
    (consoleErase n t).console.view = t.console.view.erase := by
  induction n generalizing t with
  | zero =>
    have hnil : t.console.contents = [] := List.length_eq_zero_iff.mp (Nat.le_zero.mp hn)
    simp [consoleErase, ConsoleView.erase, Console.view, hnil]
  | succ n ih =>
    rcases popLastEditable_cases t.console with ⟨hpop, hself⟩ | ⟨c', ch, hch, hpop, hview⟩
    · simp only [consoleErase, hpop, ConsoleView.erase, Console.view, hself]
    · have hback : t.console.contents = c'.contents ++ [ch] :=
        congrArg ConsoleView.contents hview
      have hlen : c'.contents.length ≤ n := by
        rw [hback, List.length_append, List.length_singleton] at hn
        omega
      simp only [consoleErase, hpop]
      rw [ih (by simpa using hlen), echoBackspace_console, hview]
      simp only [ConsoleView.erase, List.rdropWhile_concat_pos _ _ _ hch]
      rfl

theorem enqueueChar_view (ch : BitVec 8) (doEcho : Bool) (t : Tty) :
    (consoleRxEnqueueChar ch doEcho t).console.view = t.console.view.push ch := by
  by_cases hfull : t.console.head + 1 = t.console.tail
  · have hlen : t.console.view.contents.length = 255 := Console.full_iff.mp hfull
    rw [ConsoleView.push, if_pos hlen]
    simp only [consoleRxEnqueueChar, if_pos hfull]
    rfl
  · have hlen : ¬ t.console.view.contents.length = 255 := fun h => hfull (Console.full_iff.mpr h)
    have hpush : Ring.contents (Function.update t.console.buf t.console.head ch) t.console.tail
        (t.console.head + 1) = t.console.contents ++ [ch] := Ring.contents_push hfull ch
    rw [ConsoleView.push, if_neg hlen]
    simp only [consoleRxEnqueueChar, if_neg hfull]
    have hecho (u : Tty) :
        (if doEcho = true then consoleEchoDataChar ch u else u).console = u.console := by
      split_ifs
      · exact echoDataChar_console ch u
      · rfl
    simp only [hecho]
    by_cases hlf : ch = asciiLf
    · have hne : ¬ ch = ttyCcVeof := by rw [hlf]; decide
      simp only [if_pos hlf, if_neg hne, Console.view, Console.contents, hpush]
    · simp only [if_neg hlf]
      split_ifs
      · simp only [Console.view, Console.contents, hpush]
      · simp only [Console.view, Console.contents, hpush]

theorem ConsoleView.pop_concat (v : ConsoleView) {xs : List (BitVec 8)} {ch : BitVec 8}
    (hch : editable ch = true) :
    { v with contents := xs ++ [ch] }.pop = { v with contents := xs } := by
  have hne : List.rdropWhile editable (xs ++ [ch]) ≠ xs ++ [ch] := by
    rw [List.rdropWhile_concat_pos _ _ _ hch]
    intro heq
    have hle := (List.rdropWhile_prefix editable xs).length_le
    rw [heq, List.length_append, List.length_singleton] at hle
    omega
  simp only [ConsoleView.pop, if_neg hne, List.dropLast_concat]

theorem ConsoleView.pop_cases (v : ConsoleView) :
    (v.contents.rdropWhile editable = v.contents ∧ v.pop = v) ∨
    ∃ xs ch, editable ch = true ∧ v.contents = xs ++ [ch] ∧ v.pop = { v with contents := xs } := by
  by_cases hself : v.contents.rdropWhile editable = v.contents
  · exact .inl ⟨hself, if_pos hself⟩
  · rcases List.eq_nil_or_concat' v.contents with hnil | ⟨xs, ch, hconcat⟩
    · rw [hnil] at hself
      exact absurd rfl hself
    · have hch : editable ch = true := by
        by_contra hmark
        rw [hconcat] at hself
        exact hself (List.rdropWhile_concat_neg _ _ _ hmark)
      refine .inr ⟨xs, ch, hch, hconcat, ?_⟩
      rw [← v.pop_concat hch, ← hconcat]

theorem feed_view (ch : BitVec 8) (t : Tty) :
    (consoleRxFeed ch t).console.view = t.console.view.feed ch := by
  have herase : (consoleErase consoleRxCap t).console.view = t.console.view.erase :=
    erase_view (le_trans t.console.contents_length_le (by decide))
  unfold consoleRxFeed ConsoleView.feed
  generalize (if ch = asciiCr then asciiLf else ch) = ch'
  dsimp only
  have hcanonical : t.console.canonical = t.console.view.canonical := rfl
  have hlflag : t.console.lflag = t.console.view.lflag := rfl
  rw [hcanonical, hlflag]
  split_ifs
  · rw [enqueueChar_view, echoIntr_console, herase]
  · exact herase
  · rcases popLastEditable_cases t.console with ⟨hpop, hself⟩ | ⟨c', b, hb, hpop, hview⟩
    · simp only [hpop]
      exact (if_pos hself).symm
    · simp only [hpop, echoBackspace_console, hview]
      rw [ConsoleView.pop_concat _ hb]
      rfl
  · exact enqueueChar_view _ _ _
  · rfl
  · exact enqueueChar_view _ _ _

theorem ConsoleView.push_lflag (v : ConsoleView) (ch : BitVec 8) : (v.push ch).lflag = v.lflag := by
  unfold ConsoleView.push
  split_ifs <;> rfl

theorem ConsoleView.pop_lflag (v : ConsoleView) : v.pop.lflag = v.lflag := by
  unfold ConsoleView.pop
  split_ifs <;> rfl

theorem ConsoleView.feed_lflag (v : ConsoleView) (ch : BitVec 8) : (v.feed ch).lflag = v.lflag := by
  unfold ConsoleView.feed
  dsimp only
  generalize (if ch = asciiCr then asciiLf else ch) = ch'
  split_ifs
  · exact v.erase.push_lflag _
  · rfl
  · exact v.pop_lflag
  · exact v.push_lflag _
  · rfl
  · exact v.push_lflag _

end Feed

/-! ## Reading the list -/

/-- The counters say how many line ends and how many end-of-file marks are stored. -/
structure ConsoleView.Counted (v : ConsoleView) : Prop where
  lines : v.lines.toNat = v.contents.count asciiLf
  eofs : v.eofs.toNat = v.contents.count ttyCcVeof

/-- What a canonical read takes: at most `n` bytes, up to and including a line end, or up
to an end-of-file mark, which is taken and not stored. -/
def takeRecord : ℕ → List (BitVec 8) → List (BitVec 8) × Bool × List (BitVec 8)
  | 0, xs => ([], false, xs)
  | _ + 1, [] => ([], false, [])
  | n + 1, ch :: rest =>
    if ch = ttyCcVeof then ([], true, rest)
    else if ch = asciiLf then ([ch], false, rest)
    else (ch :: (takeRecord n rest).1, (takeRecord n rest).2)

section Read

variable {c : Console} {n : ℕ}

/-- The console behind its first byte. -/
def Console.skip (c : Console) : Console := { c with tail := c.tail + 1 }

theorem Console.contents_eq_nil_iff : c.contents = [] ↔ c.tail = c.head :=
  Ring.contents_eq_nil_iff

theorem Console.contents_eq_cons (h : c.tail ≠ c.head) :
    c.contents = c.buf c.tail :: c.skip.contents := Ring.contents_pop h

theorem readLoop_lflag (canonical : Bool) (n : ℕ) (c : Console) :
    (consoleReadLoop canonical n c).2.2.lflag = c.lflag := by
  induction n generalizing c with
  | zero => rfl
  | succ n ih =>
    unfold consoleReadLoop
    dsimp only
    generalize (if c.eofs ≠ 0 then c.eofs - 1 else c.eofs) = eofs
    split_ifs
    · rfl
    · rfl
    · rfl
    · exact ih _
    · exact ih _

/-- A counter that counts a mark loses one with the mark. -/
theorem count_cons_mark {x : BitVec 32} {m : BitVec 8} {xs : List (BitVec 8)}
    (h : x.toNat = (m :: xs).count m) : x ≠ 0 ∧ (x - 1).toNat = xs.count m := by
  rw [List.count_cons_self] at h
  have hone : (1 : BitVec 32).toNat = 1 := rfl
  refine ⟨?_, ?_⟩
  · rintro rfl
    simp at h
  · rw [BitVec.toNat_sub, hone, h]
    have hlt := x.isLt
    omega

theorem count_cons_other {x : BitVec 32} {m ch : BitVec 8} {xs : List (BitVec 8)} (hne : ch ≠ m)
    (h : x.toNat = (ch :: xs).count m) : x.toNat = xs.count m := by
  rw [h, List.count_cons_of_ne hne]

/-- The canonical loop takes a record and keeps the counters right. -/
theorem readLoop_canonical (h : c.view.Counted) : ∃ c',
    consoleReadLoop true n c =
      ((takeRecord n c.contents).1, (takeRecord n c.contents).2.1, c') ∧
    c'.contents = (takeRecord n c.contents).2.2 ∧ c'.view.Counted ∧ c'.lflag = c.lflag := by
  induction n generalizing c with
  | zero => exact ⟨c, rfl, rfl, h, rfl⟩
  | succ n ih =>
    by_cases hempty : c.tail = c.head
    · have hnil := Console.contents_eq_nil_iff.mpr hempty
      refine ⟨c, ?_, ?_, h, rfl⟩
      · rw [consoleReadLoop, if_pos hempty, hnil]
        rfl
      · rw [hnil]
        rfl
    · have hcons := Console.contents_eq_cons hempty
      have hlines : c.lines.toNat = (c.buf c.tail :: c.skip.contents).count asciiLf :=
        hcons ▸ h.lines
      have heofs : c.eofs.toNat = (c.buf c.tail :: c.skip.contents).count ttyCcVeof :=
        hcons ▸ h.eofs
      rw [consoleReadLoop, if_neg hempty, hcons]
      dsimp only
      generalize hch : c.buf c.tail = ch at hlines heofs
      by_cases heof : ch = ttyCcVeof
      · subst heof
        obtain ⟨hne, hsub⟩ := count_cons_mark heofs
        refine ⟨{ c with eofs := c.eofs - 1, tail := c.tail + 1 }, ?_, rfl, ⟨?_, hsub⟩, rfl⟩
        · simp only [true_and, if_true, if_pos hne]
          rfl
        · exact count_cons_other (by decide) hlines
      · have heofs' := count_cons_other heof heofs
        rw [if_neg (fun hand => heof hand.2), takeRecord, if_neg heof]
        by_cases hlf : ch = asciiLf
        · subst hlf
          obtain ⟨hne, hsub⟩ := count_cons_mark hlines
          refine ⟨{ c with lines := c.lines - 1, tail := c.tail + 1 }, ?_, rfl, ⟨hsub, heofs'⟩, rfl⟩
          rw [if_pos ⟨rfl, hne⟩]
          rfl
        · have hcounted : c.skip.view.Counted := ⟨count_cons_other hlf hlines, heofs'⟩
          obtain ⟨c', hrun, hcontents, hcounted', hflag⟩ := ih hcounted
          rw [if_neg (fun hand => hlf hand.1), if_neg hlf]
          refine ⟨c', ?_, hcontents, hcounted', hflag⟩
          rw [show { c with tail := c.tail + 1 } = c.skip from rfl, hrun]

/-- The other loop takes bytes as they come. It counts line ends, and leaves the other
counter as it is. -/
theorem readLoop_raw (h : c.lines.toNat = c.contents.count asciiLf) : ∃ c',
    consoleReadLoop false n c = (c.contents.take n, false, c') ∧
    c'.contents = c.contents.drop n ∧ c'.lines.toNat = c'.contents.count asciiLf ∧
    c'.eofs = c.eofs ∧ c'.lflag = c.lflag := by
  induction n generalizing c with
  | zero => exact ⟨c, by rw [consoleReadLoop, List.take_zero], rfl, h, rfl, rfl⟩
  | succ n ih =>
    by_cases hempty : c.tail = c.head
    · have hnil := Console.contents_eq_nil_iff.mpr hempty
      refine ⟨c, ?_, ?_, h, rfl, rfl⟩
      · rw [consoleReadLoop, if_pos hempty, hnil, List.take_nil]
      · rw [hnil, List.drop_nil]
    · have hcons := Console.contents_eq_cons hempty
      have hlines : c.lines.toNat = (c.buf c.tail :: c.skip.contents).count asciiLf := hcons ▸ h
      rw [consoleReadLoop, if_neg hempty, hcons, List.take_succ_cons, List.drop_succ_cons]
      simp only [Bool.false_eq_true, false_and, if_false]
      by_cases hlf : c.buf c.tail = asciiLf
      · rw [hlf] at hlines
        obtain ⟨hne, hsub⟩ := count_cons_mark hlines
        obtain ⟨c', hrun, hrest⟩ :=
          ih (c := { c with lines := c.lines - 1, tail := c.tail + 1 }) hsub
        refine ⟨c', ?_, hrest⟩
        rw [if_pos ⟨hlf, hne⟩, hrun]
        rfl
      · obtain ⟨c', hrun, hrest⟩ := ih (c := c.skip) (count_cons_other hlf hlines)
        refine ⟨c', ?_, hrest⟩
        rw [if_neg (fun hand => hlf hand.1), show { c with tail := c.tail + 1 } = c.skip from rfl,
          hrun]

end Read

end LampVm
