import Mathlib.Data.BitVec
import LampVm.ConsoleWait
import LampVm.InitShell

/-!
# What is typed to the init task

The init task with the serial interrupt inside its calls of `console_read`: between any two
statements, and between the load of a counter and the store that decrements it. The lines that
are typed are carried out, as long as no line ends between these two. Such a line is not counted.
-/
namespace LampVm

open Transition

/-! ## The statements -/

/-- A call of `console_read` for one byte that may not block. `g_rx_lines--` and `g_rx_eofs--` load
the counter and then store it. -/
structure ByteRead where
  call : ReadCall
  loaded : Option (BitVec 32)

def ByteRead.enter (t : Tty) : ByteRead := ⟨.enter .start t, none⟩

/-- The call with the console as it is now. -/
def ByteRead.on (t : Tty) (r : ByteRead) : ByteRead := { r with call := { r.call with tty := t } }

/-- One statement, or a load or a store of a counter. -/
def ByteRead.next (r : ByteRead) : ByteRead :=
  let c := r.call.tty.console
  match r.call.place, r.loaded with
  | .nonblockTest, _ => ⟨r.call.return 0, none⟩
  | .lineCount, none => ⟨r.call, some c.lines⟩
  | .lineCount, some lines =>
    ⟨(r.call.setConsole { c with lines := lines - 1 }).goto .lineMode, none⟩
  | .eofCount, none => ⟨r.call, some c.eofs⟩
  | .eofCount, some eofs => ⟨(r.call.setConsole { c with eofs := eofs - 1 }).goto .eofTail, none⟩
  | _, _ => ⟨r.call.next 1, none⟩

/-- The counter that is loaded. -/
def ByteRead.counter (c : Console) (r : ByteRead) : BitVec 32 :=
  if r.call.place = .lineCount then c.lines else c.eofs

/-- The task, outside of the call or inside of it. -/
structure Reading where
  shell : Shell
  read : Option ByteRead

def Reading.next (s : Reading) (r : ByteRead) : Reading :=
  let r := (r.on s.shell.tty).next
  ⟨{ s.shell with tty := r.call.tty }, some r⟩

/-- `init_task_entry` behind the call. -/
def Reading.finish (s : Reading) (r : ByteRead) : Option Reading :=
  (if r.call.ret ≤ 0 then some s.shell else initTakeByte (r.call.dst.headD 0) s.shell).map
    (⟨·, none⟩)

inductive ReadingLabel
  /-- The task is scheduled, and calls `console_read`. -/
  | call
  | statement
  /-- The call returns, and the entry comes to its end. -/
  | ret
  | shell (l : ShellLabel)

/-- Steps of the task itself. -/
def ReadingLabel.own : ReadingLabel → Bool
  | .shell _ => false
  | _ => true

/-- What runs inside of a call. -/
def ShellLabel.interrupt : ShellLabel → Bool
  | .others (.feed _) | .others .other => true
  | _ => false

/-- The init task with its reads one statement at a time. What it prints in front of a read, and the
rest of its entry, are one step: the interrupt handler changes nothing of theirs but the screen. -/
def shellReads : System Reading ReadingLabel where
  init s := initShell.init s.shell ∧ s.read = none
  step s l u :=
    match l with
    | .call => s.read = none ∧ s.shell.testing = false ∧
        u = ⟨initGreet s.shell, some (.enter (initGreet s.shell).tty)⟩
    | .statement => ∃ r, s.read = some r ∧ r.call.place ≠ .done ∧ u = s.next r
    | .ret => ∃ r, s.read = some r ∧ r.call.place = .done ∧ s.finish r = some u
    | .shell l => l ≠ .entry ∧ (s.read ≠ none → l.interrupt = true) ∧
        initShell.step s.shell l u.shell ∧ u.read = s.read

def readingNotes (s : Reading) : ReadingLabel → List ShellNote
  | .call | .statement => []
  | .ret =>
    match s.read with
    | some r => .took (.got 1 true r.call.ret r.call.dst) ::
        if 0 < r.call.ret ∧ r.call.dst.headD 0 = asciiLf then [.handled s.shell.command] else []
    | none => []
  | .shell l => shellNotes s.shell l

/-! ## What is typed -/

def ShellNote.line : ShellNote → Option LineNote
  | .took x => some x
  | .console x => some x
  | _ => none

/-- The history of the console. -/
def lineLog (log : List ShellNote) : List LineNote := log.filterMap ShellNote.line

/-- The bytes of the lines that have been typed, behind all editing. -/
def typedBytes (log : List ShellNote) : List (BitVec 8) :=
  (committedBytes ⟨[], []⟩ (lineLog log)).filter (· ≠ ttyCcVeof)

/-- What the ring still holds of them. -/
def Shell.unread (w : Shell) : List (BitVec 8) := (lineOf w.tty.console.contents).committed

/-- The call has taken its byte, or has found none. -/
def ByteRead.past (r : ByteRead) : Bool :=
  match r.call.place with
  | .sawEof | .storedTest | .sawEofTest | .nonblockTest | .sleep | .done => true
  | .loopTest => r.call.dst ≠ []
  | _ => false

/-- The byte that a call has taken and not returned. -/
def ByteRead.held (r : ByteRead) : List (BitVec 8) := if r.past then r.call.dst else []

/-- What has been typed and not been returned to the task. -/
def Reading.left (s : Reading) : List (BitVec 8) :=
  s.read.elim [] ByteRead.held ++ s.shell.unread.filter (· ≠ ttyCcVeof)

/-- A character changes a counter that has been loaded. -/
def Reading.Races (s : Reading) (ch : BitVec 8) : Prop :=
  ∃ r n, s.read = some r ∧ r.loaded = some n ∧
    r.counter (consoleRxFeed ch s.shell.tty).console ≠ n

/-- The command leaves the task the only reader, and the console in canonical mode. -/
def Harmless (line : List (BitVec 8)) : Prop :=
  unindented line ≠ cstr "fdtest" ∧ unindented line ≠ cstr "tty canon off"

/-- Nobody else reads, the ring has room for each character, canonical mode stays on, the self
test is not begun, and no character changes a counter between its load and its store. -/
def OnlyReader (s : Reading) : ReadingLabel → Prop
  | .call | .statement => True
  | .ret => ∀ line ∈ handledLines (readingNotes s .ret), Harmless line
  | .shell (.others (.feed ch)) => s.shell.tty.console.contents.length < 255 ∧ ¬ s.Races ch
  | .shell (.others (.setLflag lflag)) => lflag &&& ttyLflagIcanon ≠ 0
  | .shell (.others .other) => True
  | .shell _ => False

abbrev onlyReads : System (Reading × List ShellNote) ReadingLabel :=
  (shellReads.restrict OnlyReader).logged readingNotes

def HarmlessLines (bytes : List (BitVec 8)) : Prop :=
  ∀ lines pending, IsLines bytes lines pending → ∀ line ∈ lines, Harmless (shellLine line)

/-! ## A call -/

/-- The counters with what has been subtracted from them too early. -/
def ConsoleView.credit (p : BitVec 32 × BitVec 32) (v : ConsoleView) : ConsoleView :=
  { v with lines := v.lines + p.1, eofs := v.eofs + p.2 }

/-- A counter is decremented before its mark is taken. -/
def ByteRead.owed (r : ByteRead) : BitVec 32 × BitVec 32 :=
  match r.call.place with
  | .lineMode | .lineTail => (1, 0)
  | .eofTail => (0, 1)
  | _ => (0, 0)

/-- The call has loaded the byte that comes next. -/
structure AtFront (c : Console) (canonical : Bool) (tail : Fin consoleRxCap) (byte : BitVec 8) :
    Prop where
  canonical : canonical = true
  tail : tail = c.tail
  byte : (lineOf c.contents).committed.head? = some byte

/-- What a call knows at each of its statements. -/
def ByteRead.Sound (c : Console) (r : ByteRead) : Prop :=
  let s := r.call
  let unread := (lineOf c.contents).committed
  let front := AtFront c s.canonical s.tail s.byte
  match s.place with
  | .start | .mode | .nonblockTest => s.dst = []
  | .countTest => s.canonical = true ∧ s.dst = []
  | .loopTest => s.canonical = true ∧ (s.dst = [] ∧ unread ≠ [] ∨ ∃ b, s.dst = [b])
  | .loadTail => s.canonical = true ∧ s.dst = [] ∧ unread ≠ []
  | .emptyTest | .loadByte => s.canonical = true ∧ s.dst = [] ∧ unread ≠ [] ∧ s.tail = c.tail
  | .eofTest => front ∧ s.dst = []
  | .eofCountTest | .eofTail => front ∧ s.dst = [] ∧ s.byte = ttyCcVeof
  | .eofCount => front ∧ s.dst = [] ∧ s.byte = ttyCcVeof ∧ ∀ n, r.loaded = some n → n = c.eofs
  | .store => front ∧ s.dst = [] ∧ s.byte ≠ ttyCcVeof
  | .lineTest => front ∧ s.dst = [s.byte] ∧ s.byte ≠ ttyCcVeof
  | .lineCount => front ∧ s.dst = [s.byte] ∧ s.byte = asciiLf ∧ ∀ n, r.loaded = some n → n = c.lines
  | .lineMode | .lineTail => front ∧ s.dst = [s.byte] ∧ s.byte = asciiLf
  | .advance => front ∧ s.dst = [s.byte] ∧ s.byte ≠ ttyCcVeof ∧ s.byte ≠ asciiLf
  | .sawEof => s.canonical = true ∧ s.dst = []
  | .storedTest => s.canonical = true ∧ s.dst = [] ∧ s.sawEof = true ∨ ∃ b, s.dst = [b]
  | .sawEofTest => s.canonical = true ∧ s.dst = [] ∧ s.sawEof = true
  | .done => s.ret = 0 ∧ s.dst = [] ∨ ∃ b, s.ret = 1 ∧ s.dst = [b]
  | .waitTest | .sleep => False

/-- Each statement makes it larger. -/
def ByteRead.progress (r : ByteRead) : ℕ :=
  match r.call.place with
  | .start => 1
  | .mode => 2
  | .countTest => 3
  | .loopTest => if r.call.dst = [] then 4 else 14
  | .loadTail => 5
  | .emptyTest => 6
  | .loadByte => 7
  | .eofTest => 8
  | .eofCountTest | .store => 9
  | .lineTest => 10
  | .advance => 11
  | .eofCount | .lineCount => if r.loaded = none then 11 else 12
  | .eofTail | .lineMode => 13
  | .lineTail | .sawEof => 14
  | .storedTest | .nonblockTest => 15
  | .sawEofTest => 16
  | .waitTest | .sleep | .done => 17

def ByteRead.left (c : Console) (r : ByteRead) : List (BitVec 8) :=
  r.held ++ (lineOf c.contents).committed.filter (· ≠ ttyCcVeof)

/-- The returns that are needed until all is read. -/
def ByteRead.waiting (c : Console) (r : ByteRead) : ℕ :=
  (lineOf c.contents).committed.length + if r.past then 1 else 0

section Call

variable {c c' : Console} {r r' : ByteRead} {b : BitVec 8} {rest : List (BitVec 8)}

@[simp] theorem ConsoleView.credit_zero (v : ConsoleView) : v.credit (0, 0) = v := by
  simp [ConsoleView.credit]

theorem ConsoleView.credit_push (p : BitVec 32 × BitVec 32) (v : ConsoleView) (ch : BitVec 8) :
    (v.credit p).push ch = (v.push ch).credit p := by
  unfold ConsoleView.push ConsoleView.credit
  dsimp only
  split_ifs
  · rfl
  all_goals simp only [add_right_comm]

/-- Editing asks for no counter, and a mark is added to it. -/
theorem ConsoleView.credit_feed (p : BitVec 32 × BitVec 32) (v : ConsoleView) (ch : BitVec 8) :
    (v.credit p).feed ch = (v.feed ch).credit p := by
  have hpop : (v.credit p).pop = v.pop.credit p := by
    unfold ConsoleView.pop ConsoleView.credit
    dsimp only
    split_ifs <;> rfl
  have hcanonical : (v.credit p).canonical = v.canonical := rfl
  have hlflag : (v.credit p).lflag = v.lflag := rfl
  unfold ConsoleView.feed
  generalize (if ch = asciiCr then asciiLf else ch) = ch'
  dsimp only
  rw [hcanonical, hlflag]
  split_ifs
  · exact v.erase.credit_push p _
  · rfl
  · exact hpop
  · exact v.credit_push p _
  · rfl
  · exact v.credit_push p _

/-- What is committed lies in front in the ring. -/
theorem unread_front (h : (lineOf c.contents).committed ≠ []) :
    c.tail ≠ c.head ∧ (lineOf c.contents).committed.head? = some (c.buf c.tail) := by
  obtain ⟨b, rest, hcons⟩ := List.exists_cons_of_ne_nil h
  have hsplit := lineOf_append c.contents
  have hne : c.tail ≠ c.head := by
    intro hempty
    rw [hcons, Console.contents_eq_nil_iff.mpr hempty] at hsplit
    cases hsplit
  rw [hcons, Console.contents_eq_cons hne] at hsplit
  injection hsplit with hb
  rw [hcons, ← hb]
  exact ⟨hne, rfl⟩

/-- The line behind its first byte. -/
theorem lineOf_skip (h : (lineOf c.contents).committed = b :: rest) :
    c.contents = b :: c.skip.contents ∧
      lineOf c.skip.contents = ⟨rest, (lineOf c.contents).fragment⟩ := by
  obtain ⟨hne, hfront⟩ := unread_front (by rw [h]; exact List.cons_ne_nil b rest)
  have hb : b = c.buf c.tail := by
    rw [h] at hfront
    exact Option.some.inj hfront
  have hcons := Console.contents_eq_cons hne
  rw [← hb] at hcons
  have hself : (b :: rest).rdropWhile editable = b :: rest := by
    rw [← h]
    exact List.rdropWhile_idempotent editable c.contents
  have hskip : c.skip.contents = rest ++ (lineOf c.contents).fragment := by
    have hsplit := lineOf_append c.contents
    rw [h] at hsplit
    exact (List.cons.inj (hcons.symm.trans hsplit.symm)).2
  refine ⟨hcons, ?_⟩
  rw [hskip]
  exact lineOf_append_of (rdropWhile_of_append [b] hself) fun d hd => List.mem_rtakeWhile_imp hd

theorem AtFront.cons {canonical : Bool} {tail : Fin consoleRxCap}
    (h : AtFront c canonical tail b) : ∃ rest, (lineOf c.contents).committed = b :: rest :=
  List.head?_eq_some_iff.mp h.byte

/-- A mark in front is counted. -/
theorem AtFront.counted {canonical : Bool} {tail : Fin consoleRxCap}
    (h : AtFront c canonical tail b) (hcounted : c.view.Counted) :
    (b = asciiLf → c.lines ≠ 0) ∧ (b = ttyCcVeof → c.eofs ≠ 0) := by
  obtain ⟨rest, hrest⟩ := h.cons
  obtain ⟨hcons, -⟩ := lineOf_skip hrest
  have hlines : c.lines.toNat = c.contents.count asciiLf := hcounted.lines
  have heofs : c.eofs.toNat = c.contents.count ttyCcVeof := hcounted.eofs
  rw [hcons] at hlines heofs
  constructor
  · rintro rfl
    exact (count_cons_mark hlines).1
  · rintro rfl
    exact (count_cons_mark heofs).1

/-- With a byte goes what is owed for it. -/
theorem counted_skip {p : BitVec 32 × BitVec 32}
    (hfront : (lineOf c.contents).committed = b :: rest) (h : (c.view.credit p).Counted) :
    (c.skip.view.credit (p.1 - if b = asciiLf then 1 else 0,
      p.2 - if b = ttyCcVeof then 1 else 0)).Counted := by
  obtain ⟨hcons, -⟩ := lineOf_skip hfront
  have hcount {x d : BitVec 32} {m : BitVec 8} (hx : (x + d).toNat = c.contents.count m) :
      (x + (d - if b = m then 1 else 0)).toNat = c.skip.contents.count m := by
    rw [hcons] at hx
    by_cases hm : b = m
    · subst hm
      rw [if_pos rfl, ← add_sub_assoc]
      exact (count_cons_mark hx).2
    · rw [if_neg hm, sub_zero]
      exact count_cons_other hm hx
  exact ⟨hcount h.lines, hcount h.eofs⟩

/-- What a statement leaves as it is, and how far it brings the call. -/
structure ByteRead.Moves (c : Console) (r : ByteRead) (c' : Console) (r' : ByteRead) : Prop where
  lflag : c'.lflag = c.lflag
  fragment : (lineOf c'.contents).fragment = (lineOf c.contents).fragment
  counted : (c'.view.credit r'.owed).Counted
  left : r'.left c' = r.left c
  sound : r'.Sound c'
  advances : r.left c = [] ∨ 18 * r'.waiting c' + r.progress < 18 * r.waiting c + r'.progress

/-- The console stays as it is. -/
theorem ByteRead.Moves.stay {t : Tty} (htty : r'.call.tty = t)
    (hcounted : (t.console.view.credit r.owed).Counted) (howed : r'.owed = r.owed)
    (hpast : r'.past = r.past) (hheld : r'.held = r.held) (hprogress : r.progress < r'.progress)
    (hsound : r'.Sound t.console) :
    ∃ c, r.Moves t.console c r' ∧ r'.call.tty = { t with console := c } := by
  refine ⟨t.console, ⟨rfl, rfl, howed ▸ hcounted, by rw [ByteRead.left, hheld]; rfl, hsound,
    .inr ?_⟩, htty⟩
  rw [ByteRead.waiting, ByteRead.waiting, hpast]
  omega

/-- Nothing has been typed. -/
theorem ByteRead.Moves.none (hcounted : (c.view.credit r.owed).Counted) (howed : r'.owed = r.owed)
    (hheld : r.held = []) (hheld' : r'.held = []) (hunread : (lineOf c.contents).committed = [])
    (hsound : r'.Sound c) : r.Moves c c r' := by
  have hleft : r.left c = [] := by
    rw [ByteRead.left, hheld, hunread]
    rfl
  refine ⟨rfl, rfl, howed ▸ hcounted, ?_, hsound, .inl hleft⟩
  rw [ByteRead.left, ByteRead.left, hheld, hheld']

/-- A counter is stored. -/
theorem ByteRead.Moves.store (hview : c'.view.credit r'.owed = c.view.credit r.owed)
    (hcounted : (c.view.credit r.owed).Counted) (hpast : r'.past = r.past)
    (hheld : r'.held = r.held) (hprogress : r.progress < r'.progress) (hsound : r'.Sound c') :
    r.Moves c c' r' := by
  have hcontents : c'.contents = c.contents := congrArg ConsoleView.contents hview
  refine ⟨congrArg ConsoleView.lflag hview, by rw [hcontents], hview ▸ hcounted,
    by rw [ByteRead.left, hheld, hcontents]; rfl, hsound, .inr ?_⟩
  rw [ByteRead.waiting, ByteRead.waiting, hpast, hcontents]
  omega

/-- The byte is taken from the ring. -/
theorem ByteRead.Moves.take (hfront : (lineOf c.contents).committed = b :: rest)
    (hcounted : (c.skip.view.credit r'.owed).Counted) (hpast : r.past = false)
    (hpast' : r'.past = true) (hdst : r'.call.dst = if b = ttyCcVeof then [] else [b])
    (hprogress : r.progress < r'.progress) (hsound : r'.Sound c.skip) :
    r.Moves c c.skip r' := by
  obtain ⟨-, hskip⟩ := lineOf_skip hfront
  have hheld : r.held = [] := by rw [ByteRead.held, hpast]; rfl
  have hheld' : r'.held = if b = ttyCcVeof then [] else [b] := by
    rw [ByteRead.held, hpast', ← hdst]
    rfl
  refine ⟨rfl, by rw [hskip], hcounted, ?_, hsound, .inr ?_⟩
  · rw [ByteRead.left, ByteRead.left, hskip, hheld, hheld', hfront, List.filter_cons]
    by_cases heof : b = ttyCcVeof
    · rw [if_pos heof, if_neg (by simpa using heof), List.nil_append]
    · rw [if_neg heof, if_pos (by simpa using heof)]
      rfl
  · rw [ByteRead.waiting, ByteRead.waiting, hpast, hpast', hskip, hfront, List.length_cons]
    simp only [if_true, Bool.false_eq_true, if_false]
    omega

theorem next_loaded (r : ByteRead) (h : r.next.loaded ≠ none) :
    r.next.call.place = .lineCount ∨ r.next.call.place = .eofCount := by
  obtain ⟨⟨t, place, canonical, sawEof, tail, byte, dst, ret⟩, loaded⟩ := r
  cases place with
  | lineCount =>
    cases loaded with
    | none => exact .inl rfl
    | some n => exact absurd rfl h
  | eofCount =>
    cases loaded with
    | none => exact .inr rfl
    | some n => exact absurd rfl h
  | _ => exact absurd rfl h

/-- More is typed behind what a call knows. -/
theorem ByteRead.Sound.more (h : r.Sound c) (htail : c'.tail = c.tail) {more : List (BitVec 8)}
    (hmore : (lineOf c'.contents).committed = (lineOf c.contents).committed ++ more)
    (hcount : ∀ n, r.loaded = some n → r.counter c = n → r.counter c' = n) : r.Sound c' := by
  have hne : (lineOf c.contents).committed ≠ [] → (lineOf c'.contents).committed ≠ [] := by
    intro hold hnil
    rw [hmore] at hnil
    exact hold (List.append_eq_nil_iff.mp hnil).1
  have hfront {canonical : Bool} {tail : Fin consoleRxCap} {byte : BitVec 8} :
      AtFront c canonical tail byte → AtFront c' canonical tail byte := by
    rintro ⟨hcanonical, hat, hbyte⟩
    refine ⟨hcanonical, hat.trans htail.symm, ?_⟩
    rw [hmore, List.head?_append, hbyte]
    rfl
  obtain ⟨⟨t, place, canonical, sawEof, tail, byte, dst, ret⟩, loaded⟩ := r
  cases place with
  | loopTest => exact ⟨h.1, h.2.imp (fun hold => ⟨hold.1, hne hold.2⟩) id⟩
  | loadTail => exact ⟨h.1, h.2.1, hne h.2.2⟩
  | emptyTest | loadByte => exact ⟨h.1, h.2.1, hne h.2.2.1, h.2.2.2.trans htail.symm⟩
  | eofTest | eofCountTest | eofTail | store | lineTest | lineMode | lineTail | advance =>
    exact ⟨hfront h.1, h.2⟩
  | eofCount | lineCount =>
    obtain ⟨hold, hdst, hbyte, hloaded⟩ := h
    exact ⟨hfront hold, hdst, hbyte, fun n hn =>
      (hcount n hn (hloaded n hn).symm).symm⟩
  | _ => exact h

/-- A statement, or a load or a store of a counter. -/
theorem ByteRead.Sound.next {t : Tty} (h : r.Sound t.console) (hcan : t.console.canonical = true)
    (hcounted : (t.console.view.credit r.owed).Counted) (hplace : r.call.place ≠ .done) :
    ∃ c, r.Moves t.console c (r.on t).next ∧ (r.on t).next.call.tty = { t with console := c } := by
  obtain ⟨⟨t', place, canonical, sawEof, tail, byte, dst, ret⟩, loaded⟩ := r
  unfold ByteRead.next ReadCall.next ByteRead.on
  cases place with
  | waitTest | sleep => exact h.elim
  | done => exact absurd rfl hplace
  | start => exact Moves.stay rfl hcounted rfl rfl rfl (by simp [progress, ReadCall.goto]) h
  | mode => exact Moves.stay rfl hcounted rfl rfl rfl (by simp [progress]) ⟨hcan, h⟩
  | countTest =>
    obtain ⟨rfl, rfl⟩ := h
    have hnil := ((ConsoleView.credit_zero _).subst hcounted).none_iff
    dsimp only
    split_ifs with hnone
    · exact ⟨t.console, .none hcounted rfl rfl rfl (hnil.mp hnone.2) rfl, rfl⟩
    · have hne : (lineOf t.console.contents).committed ≠ [] := fun h => hnone ⟨rfl, hnil.mpr h⟩
      exact Moves.stay rfl hcounted rfl rfl rfl (by simp [progress, ReadCall.goto])
        ⟨rfl, .inl ⟨rfl, hne⟩⟩
  | loopTest =>
    obtain ⟨rfl, ⟨rfl, hne⟩ | ⟨b, rfl⟩⟩ := h
    · exact Moves.stay rfl hcounted rfl rfl rfl (by simp [progress, ReadCall.goto]) ⟨rfl, rfl, hne⟩
    · exact Moves.stay rfl hcounted rfl rfl rfl (by simp [progress, ReadCall.goto]) (.inr ⟨b, rfl⟩)
  | loadTail =>
    obtain ⟨rfl, rfl, hne⟩ := h
    exact Moves.stay rfl hcounted rfl rfl rfl (by simp [progress]) ⟨rfl, rfl, hne, rfl⟩
  | emptyTest =>
    obtain ⟨rfl, rfl, hne, rfl⟩ := h
    dsimp only
    rw [if_neg (unread_front hne).1]
    exact Moves.stay rfl hcounted rfl rfl rfl (by simp [progress, ReadCall.goto])
      ⟨rfl, rfl, hne, rfl⟩
  | loadByte =>
    obtain ⟨rfl, rfl, hne, rfl⟩ := h
    exact Moves.stay rfl hcounted rfl rfl rfl (by simp [progress])
      ⟨⟨rfl, rfl, (unread_front hne).2⟩, rfl⟩
  | eofTest =>
    obtain ⟨hfront, rfl⟩ := h
    dsimp only
    split_ifs with heof
    · exact Moves.stay rfl hcounted rfl rfl rfl (by simp [progress, ReadCall.goto])
        ⟨hfront, rfl, heof.2⟩
    · exact Moves.stay rfl hcounted rfl rfl rfl (by simp [progress, ReadCall.goto])
        ⟨hfront, rfl, fun h => heof ⟨hfront.canonical, h⟩⟩
  | eofCountTest =>
    obtain ⟨hfront, rfl, rfl⟩ := h
    have hcount := (hfront.counted ((ConsoleView.credit_zero _).subst hcounted)).2 rfl
    dsimp only
    rw [if_pos hcount]
    exact Moves.stay rfl hcounted rfl rfl rfl (by simp [progress, ReadCall.goto])
      ⟨hfront, rfl, rfl, fun n hn => by cases hn⟩
  | eofCount =>
    obtain ⟨hfront, rfl, rfl, hloaded⟩ := h
    cases loaded with
    | none =>
      exact Moves.stay rfl hcounted rfl rfl rfl (by simp [progress])
        ⟨hfront, rfl, rfl, fun n hn => (Option.some.inj hn).symm⟩
    | some n =>
      obtain rfl := hloaded n rfl
      refine ⟨{ t.console with eofs := t.console.eofs - 1 }, .store ?_ hcounted rfl rfl
        (by simp [progress, ReadCall.goto])
        ⟨⟨hfront.canonical, hfront.tail, hfront.byte⟩, rfl, rfl⟩, rfl⟩
      exact congrArg (ConsoleView.mk t.console.contents (t.console.lines + 0) · t.console.lflag)
        ((sub_add_cancel t.console.eofs 1).trans (add_zero _).symm)
  | eofTail =>
    obtain ⟨hfront, rfl, rfl⟩ := h
    obtain ⟨rest, hrest⟩ := hfront.cons
    obtain rfl := hfront.tail
    have hskip := counted_skip (b := ttyCcVeof) (p := (0, 1)) hrest hcounted
    rw [if_neg (by decide), if_pos rfl, sub_zero, sub_self] at hskip
    exact ⟨t.console.skip, .take hrest hskip rfl rfl rfl
      (by simp [progress, ReadCall.goto]) ⟨hfront.canonical, rfl⟩, rfl⟩
  | sawEof =>
    obtain ⟨rfl, rfl⟩ := h
    exact Moves.stay rfl hcounted rfl rfl rfl (by simp [progress]) (.inl ⟨rfl, rfl, rfl⟩)
  | store =>
    obtain ⟨hfront, rfl, hbyte⟩ := h
    exact Moves.stay rfl hcounted rfl rfl rfl (by simp [progress]) ⟨hfront, rfl, hbyte⟩
  | lineTest =>
    obtain ⟨hfront, hdst, hbyte⟩ := h
    obtain rfl : dst = [byte] := hdst
    have hcount := (hfront.counted ((ConsoleView.credit_zero _).subst hcounted)).1
    dsimp only
    split_ifs with hlf
    · exact Moves.stay rfl hcounted rfl rfl rfl (by simp [progress, ReadCall.goto])
        ⟨hfront, rfl, hlf.1, fun n hn => by cases hn⟩
    · exact Moves.stay rfl hcounted rfl rfl rfl (by simp [progress, ReadCall.goto])
        ⟨hfront, rfl, hbyte, fun h => hlf ⟨h, hcount h⟩⟩
  | lineCount =>
    obtain ⟨hfront, hdst, hbyte, hloaded⟩ := h
    obtain rfl : byte = asciiLf := hbyte
    obtain rfl : dst = [asciiLf] := hdst
    cases loaded with
    | none =>
      exact Moves.stay rfl hcounted rfl rfl rfl (by simp [progress])
        ⟨hfront, rfl, rfl, fun n hn => (Option.some.inj hn).symm⟩
    | some n =>
      obtain rfl := hloaded n rfl
      refine ⟨{ t.console with lines := t.console.lines - 1 }, .store ?_ hcounted rfl rfl
        (by simp [progress, ReadCall.goto])
        ⟨⟨hfront.canonical, hfront.tail, hfront.byte⟩, rfl, rfl⟩, rfl⟩
      exact congrArg (ConsoleView.mk t.console.contents · (t.console.eofs + 0) t.console.lflag)
        ((sub_add_cancel t.console.lines 1).trans (add_zero _).symm)
  | lineMode =>
    obtain ⟨hfront, hdst, hbyte⟩ := h
    obtain rfl : byte = asciiLf := hbyte
    obtain rfl : dst = [asciiLf] := hdst
    obtain rfl := hfront.canonical
    exact Moves.stay rfl hcounted rfl rfl rfl (by simp [progress, ReadCall.goto]) ⟨hfront, rfl, rfl⟩
  | lineTail =>
    obtain ⟨hfront, hdst, hbyte⟩ := h
    obtain rfl : byte = asciiLf := hbyte
    obtain rfl : dst = [asciiLf] := hdst
    obtain ⟨rest, hrest⟩ := hfront.cons
    obtain rfl := hfront.tail
    have hskip := counted_skip (b := asciiLf) (p := (1, 0)) hrest hcounted
    rw [if_pos rfl, if_neg (by decide), sub_zero, sub_self] at hskip
    exact ⟨t.console.skip, .take hrest hskip rfl rfl rfl
      (by simp [progress, ReadCall.goto]) (.inr ⟨_, rfl⟩), rfl⟩
  | advance =>
    obtain ⟨hfront, hdst, heof, hlf⟩ := h
    obtain rfl : dst = [byte] := hdst
    obtain ⟨rest, hrest⟩ := hfront.cons
    obtain rfl := hfront.tail
    have hskip := counted_skip (p := (0, 0)) hrest hcounted
    rw [if_neg hlf, if_neg heof, sub_zero] at hskip
    exact ⟨t.console.skip, .take hrest hskip rfl rfl (if_neg heof).symm
      (by simp [progress, ReadCall.goto, ReadCall.setConsole])
      ⟨hfront.canonical, .inr ⟨byte, rfl⟩⟩, rfl⟩
  | storedTest =>
    obtain ⟨rfl, rfl, rfl⟩ | ⟨b, rfl⟩ := h
    · exact Moves.stay rfl hcounted rfl rfl rfl (by simp [progress, ReadCall.goto]) ⟨rfl, rfl, rfl⟩
    · exact Moves.stay rfl hcounted rfl rfl rfl (by simp [progress, ReadCall.return])
        (.inr ⟨b, rfl, rfl⟩)
  | sawEofTest =>
    obtain ⟨rfl, rfl, rfl⟩ := h
    exact Moves.stay rfl hcounted rfl rfl rfl (by simp [progress, ReadCall.return])
      (.inl ⟨rfl, rfl⟩)
  | nonblockTest =>
    exact Moves.stay rfl hcounted rfl rfl rfl (by simp [progress, ReadCall.return]) (.inl ⟨rfl, h⟩)

end Call

/-! ## Histories -/

section Histories

variable {notes : List ShellNote} {l l' : Line}

theorem tookBytes_append (log log' : List ShellNote) :
    tookBytes (log ++ log') = tookBytes log ++ tookBytes log' :=
  List.flatMap_append

theorem lineLog_append (log log' : List ShellNote) :
    lineLog (log ++ log') = lineLog log ++ lineLog log' :=
  List.filterMap_append

theorem committedBytes_append (l : Line) (log log' : List LineNote) :
    committedBytes l (log ++ log') =
      committedBytes l log ++ committedBytes (log.foldl lineApply l) log' := by
  induction log generalizing l with
  | nil => rfl
  | cons x log ih =>
    cases x with
    | fed ch isig => simp [committedBytes, ih]
    | got len nonblock rc bytes => simp [committedBytes, ih]

/-- The fragment that a history leaves behind. -/
def fragmentOf (log : List ShellNote) : List (BitVec 8) :=
  ((lineLog log).foldl lineApply ⟨[], []⟩).fragment

/-- What is committed, and what is made of the fragment, is a matter of the fragment. -/
theorem Line.feed_congr (h : l.fragment = l'.fragment) (isig : Bool) (ch : BitVec 8) :
    l.commits isig ch = l'.commits isig ch ∧ l.edit isig ch = l'.edit isig ch := by
  unfold Line.commits Line.edit
  rw [h]
  exact ⟨rfl, rfl⟩

theorem typed_quiet (log : List ShellNote) (h : lineLog notes = []) :
    typedBytes (log ++ notes) = typedBytes log ∧ fragmentOf (log ++ notes) = fragmentOf log := by
  unfold typedBytes fragmentOf
  rw [lineLog_append, h, List.append_nil]
  exact ⟨rfl, rfl⟩

/-- A read types nothing. -/
theorem typed_got (log : List ShellNote) {rc : ℤ} {bytes : List (BitVec 8)}
    (h : lineLog notes = [.got 1 true rc bytes]) :
    typedBytes (log ++ notes) = typedBytes log ∧ fragmentOf (log ++ notes) = fragmentOf log := by
  unfold typedBytes fragmentOf
  rw [lineLog_append, h, committedBytes_append, List.foldl_append]
  exact ⟨congrArg _ (List.append_nil _), (Line.read_rest _ _).2⟩

theorem typed_fed {log : List ShellNote} {ch : BitVec 8} {isig : Bool}
    (h : lineLog notes = [.fed ch isig]) (hfragment : fragmentOf log = l.fragment) :
    typedBytes (log ++ notes) = typedBytes log ++
        (l.commits isig (if ch = asciiCr then asciiLf else ch)).filter (· ≠ ttyCcVeof) ∧
      fragmentOf (log ++ notes) = (l.feed isig ch).fragment := by
  obtain ⟨hcommits, hedit⟩ :=
    Line.feed_congr hfragment isig (if ch = asciiCr then asciiLf else ch)
  unfold typedBytes fragmentOf
  rw [lineLog_append, h, committedBytes_append, List.foldl_append, List.filter_append,
    ← hcommits]
  exact ⟨congrArg _ (congrArg _ (List.append_nil _)), hedit⟩

theorem IsLines.append {bytes bytes' pending : List (BitVec 8)}
    {lines lines' : List (List (BitVec 8))} (h : IsLines bytes lines [])
    (h' : IsLines bytes' lines' pending) : IsLines (bytes ++ bytes') (lines ++ lines') pending := by
  refine ⟨?_, ?_, h'.noEndPending⟩
  · rw [h.eq, h'.eq, List.append_nil, List.flatMap_append, List.append_assoc]
  · intro line hline
    rcases List.mem_append.mp hline with hline | hline
    · exact h.noEnd line hline
    · exact h'.noEnd line hline

theorem exists_isLines (bytes : List (BitVec 8)) :
    ∃ lines pending, IsLines bytes lines pending := by
  induction bytes using List.reverseRecOn with
  | nil => exact ⟨[], [], rfl, by simp, by simp⟩
  | append_singleton bytes b ih =>
    obtain ⟨lines, pending, h⟩ := ih
    by_cases hb : b = asciiLf
    · subst hb
      exact ⟨_, _, h.lf⟩
    · exact ⟨_, _, h.char hb⟩

theorem takeWhile_line {line rest : List (BitVec 8)} (h : asciiLf ∉ line) :
    (line ++ asciiLf :: rest).takeWhile (· ≠ asciiLf) = line := by
  have hline : ∀ b ∈ line, decide (b ≠ asciiLf) = true := by
    intro b hb
    rw [decide_eq_true_iff]
    rintro rfl
    exact h hb
  rw [List.takeWhile_append_of_pos hline, List.takeWhile_cons_of_neg (by simp), List.append_nil]

/-- Bytes are lines in one way. -/
theorem IsLines.unique {bytes pending pending' : List (BitVec 8)}
    {lines lines' : List (List (BitVec 8))} (h : IsLines bytes lines pending)
    (h' : IsLines bytes lines' pending') : lines = lines' ∧ pending = pending' := by
  induction lines generalizing bytes lines' with
  | nil =>
    cases lines' with
    | nil => exact ⟨rfl, h.eq.symm.trans h'.eq⟩
    | cons line lines' =>
      refine absurd ?_ h.noEndPending
      have hmem := h.eq.symm.trans h'.eq
      rw [List.flatMap_nil, List.nil_append] at hmem
      rw [hmem]
      simp
  | cons line lines ih =>
    cases lines' with
    | nil =>
      refine absurd ?_ h'.noEndPending
      have hmem := h'.eq.symm.trans h.eq
      rw [List.flatMap_nil, List.nil_append] at hmem
      rw [hmem]
      simp
    | cons line' lines' =>
      have heq := h.eq.symm.trans h'.eq
      simp only [List.flatMap_cons, List.append_assoc, List.singleton_append] at heq
      have hline := congrArg (List.takeWhile (· ≠ asciiLf)) heq
      rw [List.cons_append, List.cons_append, takeWhile_line (h.noEnd line List.mem_cons_self),
        takeWhile_line (h'.noEnd line' List.mem_cons_self)] at hline
      subst hline
      have hrest := (List.cons.inj (List.append_cancel_left heq)).2
      have htail : IsLines (lines.flatMap (· ++ [asciiLf]) ++ pending) lines pending :=
        ⟨rfl, fun k hk => h.noEnd k (List.mem_cons_of_mem _ hk), h.noEndPending⟩
      have htail' : IsLines (lines.flatMap (· ++ [asciiLf]) ++ pending) lines' pending' :=
        ⟨hrest, fun k hk => h'.noEnd k (List.mem_cons_of_mem _ hk), h'.noEndPending⟩
      obtain ⟨rfl, rfl⟩ := ih htail htail'
      exact ⟨rfl, rfl⟩

end Histories

/-! ## The only reader -/

/-- The counters are those of the marks in the ring, but for one that is about to be taken. -/
def Reading.Counted (s : Reading) : Prop :=
  (s.shell.tty.console.view.credit (s.read.elim (0, 0) ByteRead.owed)).Counted

/-- What a history says when the task is the only reader. -/
structure Reading.Alone (s : Reading) (log : List ShellNote) : Prop where
  told : ∃ lines pending, s.shell.Told log lines pending
  testing : s.shell.testing = false
  canonical : s.shell.tty.console.canonical = true
  counted : s.Counted
  fragment : fragmentOf log = (lineOf s.shell.tty.console.contents).fragment
  typed : typedBytes log = tookBytes log ++ s.left
  sound : ∀ r, s.read = some r → r.Sound s.shell.tty.console

def Reading.waiting (s : Reading) : ℕ :=
  s.shell.unread.length + s.read.elim 0 fun r => if r.past then 1 else 0

def Reading.progress (s : Reading) : ℕ := s.read.elim 0 ByteRead.progress

/-- A step of the task brings it closer to having read everything. -/
def Reading.Advances (s u : Reading) : Prop :=
  (s.left = [] → u.left = []) ∧
    (s.left = [] ∨ 18 * u.waiting + s.progress < 18 * s.waiting + u.progress)

section Alone

variable {s u : Reading} {w w' : Shell} {r : ByteRead} {log notes : List ShellNote} {t : Tty}
  {l : ReadingLabel} {c ch : BitVec 8} {lines : List (List (BitVec 8))} {pending : List (BitVec 8)}

theorem Reading.Alone.call (h : Reading.Alone ⟨w, none⟩ log) :
    Reading.Alone ⟨initGreet w, some (.enter (initGreet w).tty)⟩ log ∧
      Reading.Advances ⟨w, none⟩ ⟨initGreet w, some (.enter (initGreet w).tty)⟩ := by
  obtain ⟨lines, pending, htold⟩ := h.told
  obtain ⟨screen, started, hgreet⟩ := initGreet_eq w
  rw [hgreet]
  refine ⟨⟨⟨lines, pending, htold.isLines, htold.handled, ?_, htold.settings⟩, h.testing,
    h.canonical, h.counted, h.fragment, h.typed, ?_⟩, id, .inr (Nat.lt_succ_self _)⟩
  · exact ⟨htold.keeps.room, htold.keeps.text, htold.keeps.testing⟩
  · intro r hr
    obtain rfl := Option.some.inj hr
    rfl

theorem Reading.Alone.statement (h : Reading.Alone ⟨w, some r⟩ log)
    (hplace : r.call.place ≠ .done) : (Reading.next ⟨w, some r⟩ r).Alone log ∧
      Reading.Advances ⟨w, some r⟩ (Reading.next ⟨w, some r⟩ r) := by
  obtain ⟨lines, pending, htold⟩ := h.told
  obtain ⟨c, hmoves, htty⟩ := (h.sound r rfl).next h.canonical h.counted hplace
  have hnext : Reading.next ⟨w, some r⟩ r =
      ⟨{ w with tty := { w.tty with console := c } }, some (r.on w.tty).next⟩ := by
    rw [← htty]
    rfl
  have hlflag : c.lflag = w.lflag := hmoves.lflag
  rw [hnext]
  refine ⟨⟨⟨lines, pending, htold.isLines, htold.handled, ?_, ?_⟩, h.testing, ?_, hmoves.counted,
    h.fragment.trans hmoves.fragment.symm, ?_, ?_⟩, fun hleft => hmoves.left.trans hleft,
    hmoves.advances⟩
  · exact ⟨htold.keeps.room, htold.keeps.text, htold.keeps.testing⟩
  · rw [← htold.settings, Shell.settings, Shell.settings, ← hlflag]
    rfl
  · change c.canonical = true
    rw [Console.canonical, hlflag]
    exact h.canonical
  · exact h.typed.trans (congrArg (tookBytes log ++ ·) hmoves.left.symm)
  · intro r' hr'
    obtain rfl := Option.some.inj hr'
    exact hmoves.sound

theorem ret_notes (w : Shell) (r : ByteRead) :
    lineLog (readingNotes ⟨w, some r⟩ .ret) = [.got 1 true r.call.ret r.call.dst] ∧
      tookBytes (readingNotes ⟨w, some r⟩ .ret) = r.call.dst := by
  unfold readingNotes
  dsimp only
  split_ifs
  · exact ⟨rfl, List.append_nil _⟩
  · exact ⟨rfl, List.append_nil _⟩

theorem ret_handled (w : Shell) (r : ByteRead) : handledLines (readingNotes ⟨w, some r⟩ .ret) =
    if 0 < r.call.ret ∧ r.call.dst.headD 0 = asciiLf then [w.command] else [] := by
  unfold readingNotes
  dsimp only
  split_ifs
  · rfl
  · rfl

/-- The task has what the call has taken. -/
theorem Reading.Alone.returned (h : Reading.Alone ⟨w, some r⟩ log) (hplace : r.call.place = .done)
    (htold : w'.Told (log ++ readingNotes ⟨w, some r⟩ .ret) lines pending)
    (htesting : w'.testing = false) (hcan : w'.tty.console.canonical = true) {lflag : BitVec 32}
    (hconsole : w'.tty.console = { w.tty.console with lflag := lflag }) :
    Reading.Alone ⟨w', none⟩ (log ++ readingNotes ⟨w, some r⟩ .ret) ∧
      Reading.Advances ⟨w, some r⟩ ⟨w', none⟩ := by
  obtain ⟨hline, htook⟩ := ret_notes w r
  obtain ⟨htyped, hfragment⟩ := typed_got log hline
  have hcontents : w'.tty.console.contents = w.tty.console.contents := by
    rw [hconsole]
    rfl
  have howed : r.owed = (0, 0) := by rw [ByteRead.owed, hplace]
  have hpast : r.past = true := by rw [ByteRead.past, hplace]
  have hheld : r.held = r.call.dst := by rw [ByteRead.held, hpast]; rfl
  have hprogress : r.progress = 17 := by rw [ByteRead.progress, hplace]
  have hleft : Reading.left ⟨w', none⟩ = w.unread.filter (· ≠ ttyCcVeof) := by
    rw [Reading.left, Shell.unread, hcontents]
    rfl
  have hcounted := h.counted
  change (w.tty.console.view.credit r.owed).Counted at hcounted
  rw [howed] at hcounted
  refine ⟨⟨⟨lines, pending, htold⟩, htesting, hcan, ?_, ?_, ?_, ?_⟩, ?_, .inr ?_⟩
  · change (w'.tty.console.view.credit (0, 0)).Counted
    rw [hconsole]
    exact ⟨hcounted.lines, hcounted.eofs⟩
  · rw [hfragment, hcontents]
    exact h.fragment
  · rw [htyped, tookBytes_append, htook, hleft, ← hheld, List.append_assoc]
    exact h.typed
  · intro r hr
    cases hr
  · intro hnil
    rw [hleft]
    exact (List.append_eq_nil_iff.mp hnil).2
  · change 18 * (w'.unread.length + 0) + r.progress <
      18 * (w.unread.length + if r.past then 1 else 0) + 0
    rw [hprogress, hpast, if_pos rfl, Shell.unread, hcontents]
    change 18 * (w.unread.length + 0) + 17 < _
    omega

theorem icanon_iff (v : BitVec 32) : v &&& ttyLflagIcanon ≠ 0 ↔ v.getLsbD 1 = true := by
  have hbit : (v &&& ttyLflagIcanon).getLsbD 1 = v.getLsbD 1 := by simp
  have htwo : ttyLflagIcanon = BitVec.twoPow 32 1 := by decide
  constructor
  · intro hne
    by_contra hoff
    rw [htwo, BitVec.and_twoPow, if_neg hoff] at hne
    exact hne rfl
  · intro hon hzero
    rw [hzero, hon] at hbit
    cases hbit

/-- Only `tty canon off` leaves canonical mode. -/
theorem Settings.after_icanon {line : List (BitVec 8)} {s : Settings}
    (hs : s.lflag &&& ttyLflagIcanon ≠ 0) (hline : unindented line ≠ cstr "tty canon off") :
    (s.after line).lflag &&& ttyLflagIcanon ≠ 0 := by
  by_cases hset : ∃ c ∈ settingCommands, unindented line = c.1
  · obtain ⟨c, hc, hcmd⟩ := hset
    rw [Settings.after_of_mem hc hcmd]
    rw [hcmd] at hline
    rw [icanon_iff] at hs ⊢
    simp only [settingCommands, List.mem_cons, List.not_mem_nil, or_false] at hc
    rcases hc with rfl | rfl | rfl | rfl | rfl | rfl | rfl | rfl | rfl | rfl
    · exact hs
    · exact hs
    · exact hs
    · exact hs
    · simp [Settings.setFlag, hs]
    · simp [Settings.setFlag, hs]
    · simp [Settings.setFlag]
    · exact absurd rfl hline
    · simp [Settings.setFlag, hs]
    · simp [Settings.setFlag, hs]
  · rw [Settings.after_of_not_mem fun c hc heq => hset ⟨c, hc, heq⟩]
    exact hs

/-- A harmless line leaves the task the only reader. -/
theorem takeByte_console (h : w.Keeps pending) (htesting : w.testing = false)
    (hcan : w.tty.console.canonical = true) (hline : c = asciiLf → Harmless (shellLine pending))
    (htake : initTakeByte c w = some w') : w'.testing = false ∧
      w'.tty.console.canonical = true ∧
      ∃ lflag, w'.tty.console = { w.tty.console with lflag := lflag } := by
  by_cases hc : c = asciiLf
  · obtain ⟨hfdtest, hcanon⟩ := hline hc
    subst hc
    obtain ⟨u, screen, hu, -, htty, -, htested⟩ := takeByte_lf h htesting
    obtain rfl := Option.some.inj (hu.symm.trans htake)
    rw [htty, htested]
    refine ⟨decide_eq_false hfdtest, decide_eq_true (Settings.after_icanon ?_ hcanon), _, rfl⟩
    exact of_decide_eq_true hcan
  · obtain ⟨u, hu, -, htty, -, htested⟩ := takeByte_char h htesting hc
    obtain rfl := Option.some.inj (hu.symm.trans htake)
    rw [htty]
    exact ⟨htested, hcan, w.tty.console.lflag, rfl⟩

/-- The call returns, and a line end has its line carried out. -/
theorem Reading.Alone.ret (h : Reading.Alone ⟨w, some r⟩ log) (hplace : r.call.place = .done) :
    ∃ w', Reading.finish ⟨w, some r⟩ r = some ⟨w', none⟩ ∧
      (OnlyReader ⟨w, some r⟩ .ret →
        Reading.Alone ⟨w', none⟩ (log ++ readingNotes ⟨w, some r⟩ .ret) ∧
          Reading.Advances ⟨w, some r⟩ ⟨w', none⟩) := by
  obtain ⟨lines, pending, htold⟩ := h.told
  have hsound := h.sound r rfl
  obtain ⟨⟨t, place, canonical, sawEof, tail, byte, dst, ret⟩, loaded⟩ := r
  obtain rfl : place = .done := hplace
  obtain ⟨rfl, rfl⟩ | ⟨b, rfl, rfl⟩ := hsound
  · have hsame : w.tty.console = { w.tty.console with lflag := w.lflag } := rfl
    refine ⟨w, rfl, fun _ => h.returned rfl (htold.others ?_ rfl htold.keeps ?_) h.testing
      h.canonical hsame⟩
    · simp [readingNotes, ShellNote.taken, ShellNote.command]
    · rfl
  · obtain ⟨w', lines', pending', htake, htold'⟩ := htold.take h.testing b
    have hfinish : ((initTakeByte b w).map (⟨·, none⟩) : Option Reading) = some ⟨w', none⟩ := by
      rw [htake]
      rfl
    refine ⟨w', hfinish, fun honly => ?_⟩
    have hline : b = asciiLf → Harmless (shellLine pending) := by
      rintro rfl
      rw [← htold.keeps.command h.testing]
      exact honly w.command (by rw [ret_handled, if_pos ⟨zero_lt_one, rfl⟩]; simp)
    obtain ⟨htest, hcan, lflag, hconsole⟩ :=
      takeByte_console htold.keeps h.testing h.canonical hline htake
    replace htold' : w'.Told (log ++ readingNotes
        ⟨w, some ⟨⟨t, .done, canonical, sawEof, tail, byte, [b], 1⟩, loaded⟩⟩ .ret)
        lines' pending' := by
      simpa [readingNotes] using htold'
    exact h.returned rfl htold' htest hcan hconsole

/-- A character is typed. -/
theorem Reading.Alone.feed (h : s.Alone log) (hroom : s.shell.tty.console.contents.length < 255)
    (hraces : ¬ s.Races ch)
    (htold : Shell.Told { s.shell with tty := consoleRxFeed ch s.shell.tty }
      (log ++ shellNotes s.shell (.others (.feed ch))) lines pending) :
    Reading.Alone ⟨{ s.shell with tty := consoleRxFeed ch s.shell.tty }, s.read⟩
      (log ++ shellNotes s.shell (.others (.feed ch))) := by
  obtain ⟨w, read⟩ := s
  have hview := feed_view ch w.tty
  have hcontents : (consoleRxFeed ch w.tty).console.contents =
      (w.tty.console.view.feed ch).contents := congrArg ConsoleView.contents hview
  have hline : lineOf (consoleRxFeed ch w.tty).console.contents =
      (lineOf w.tty.console.contents).feed
        (decide (w.tty.console.lflag &&& ttyLflagIsig ≠ 0)) ch := by
    rw [hcontents]
    exact lineOf_feed (v := w.tty.console.view) h.canonical hroom ch
  have hlflag : (consoleRxFeed ch w.tty).console.lflag = w.tty.console.lflag :=
    (congrArg ConsoleView.lflag hview).trans (w.tty.console.view.feed_lflag ch)
  have hnotes : lineLog (shellNotes w (.others (.feed ch))) =
      [.fed ch (decide (w.tty.console.lflag &&& ttyLflagIsig ≠ 0))] := rfl
  obtain ⟨htyped, hfragment⟩ := typed_fed hnotes h.fragment
  refine ⟨⟨lines, pending, htold⟩, h.testing, ?_, ?_, ?_, ?_, ?_⟩
  · change (consoleRxFeed ch w.tty).console.canonical = true
    rw [Console.canonical, hlflag]
    exact h.canonical
  · change ((consoleRxFeed ch w.tty).console.view.credit _).Counted
    rw [hview, ← ConsoleView.credit_feed]
    exact h.counted.feed w.tty.console.contents_length_le ch
  · rw [hfragment]
    exact congrArg Line.fragment hline.symm
  · have htook : tookBytes (shellNotes w (.others (.feed ch))) = [] := rfl
    have hunread : Shell.unread { w with tty := consoleRxFeed ch w.tty } = w.unread ++
        (lineOf w.tty.console.contents).commits (decide (w.tty.console.lflag &&& ttyLflagIsig ≠ 0))
          (if ch = asciiCr then asciiLf else ch) := congrArg Line.committed hline
    rw [htyped, tookBytes_append, htook, List.append_nil, h.typed, Reading.left, Reading.left,
      hunread, List.filter_append, List.append_assoc, List.append_assoc]
  · intro r hr
    refine (h.sound r hr).more (feed_tail ch w.tty) (congrArg Line.committed hline) ?_
    intro n hn _
    by_contra hne
    exact hraces ⟨r, n, hr, hn, hne⟩

/-- The ring stays as it is, and so does canonical mode. -/
theorem Reading.Alone.flags (h : s.Alone log) {lflag : BitVec 32} (hconsole : t.console =
      { s.shell.tty.console with lflag := lflag }) (hcan : t.console.canonical = true)
    (hline : lineLog notes = []) (htook : tookBytes notes = [])
    (htold : Shell.Told { s.shell with tty := t } (log ++ notes) lines pending) :
    Reading.Alone ⟨{ s.shell with tty := t }, s.read⟩ (log ++ notes) := by
  obtain ⟨htyped, hfragment⟩ := typed_quiet log hline
  have hcontents : t.console.contents = s.shell.tty.console.contents := by
    rw [hconsole]
    rfl
  refine ⟨⟨lines, pending, htold⟩, h.testing, hcan, ?_, ?_, ?_, fun r hr => ?_⟩
  · change (t.console.view.credit _).Counted
    rw [hconsole]
    exact ⟨h.counted.lines, h.counted.eofs⟩
  · rw [hfragment, hcontents]
    exact h.fragment
  · rw [htyped, tookBytes_append, htook, List.append_nil, Reading.left, Shell.unread, hcontents]
    exact h.typed
  · have hunread : (lineOf t.console.contents).committed = s.shell.unread ++ [] := by
      rw [hcontents, List.append_nil]
      rfl
    refine (h.sound r hr).more (by rw [hconsole]) hunread ?_
    rw [hconsole]
    exact fun n _ hn => hn

/-- A step that leaves the task the only reader. Its own steps bring it on, and type nothing. -/
theorem Reading.Alone.step (h : s.Alone log) (honly : OnlyReader s l)
    (hs : shellReads.step s l u) : u.Alone (log ++ readingNotes s l) ∧ (l.own = true →
      s.Advances u ∧ typedBytes (log ++ readingNotes s l) = typedBytes log) := by
  cases l with
  | call =>
    obtain ⟨hread, -, rfl⟩ := hs
    obtain ⟨w, read⟩ := s
    subst hread
    have hnil : log ++ readingNotes ⟨w, none⟩ .call = log := List.append_nil log
    rw [hnil]
    exact ⟨h.call.1, fun _ => ⟨h.call.2, rfl⟩⟩
  | statement =>
    obtain ⟨r, hread, hplace, rfl⟩ := hs
    obtain ⟨w, read⟩ := s
    subst hread
    have hnil : log ++ readingNotes ⟨w, some r⟩ .statement = log := List.append_nil log
    rw [hnil]
    exact ⟨(h.statement hplace).1, fun _ => ⟨(h.statement hplace).2, rfl⟩⟩
  | ret =>
    obtain ⟨r, hread, hplace, hfinish⟩ := hs
    obtain ⟨w, read⟩ := s
    subst hread
    obtain ⟨w', hw', hnext⟩ := h.ret hplace
    obtain rfl := Option.some.inj (hw'.symm.trans hfinish)
    exact ⟨(hnext honly).1, fun _ => ⟨(hnext honly).2, (typed_got log (ret_notes w r).1).1⟩⟩
  | shell l =>
    refine ⟨?_, fun hown => absurd hown Bool.false_ne_true⟩
    obtain ⟨-, -, hstep, hread⟩ := hs
    obtain ⟨lines, pending, htold⟩ := h.told
    obtain ⟨lines', pending', htold'⟩ := htold.step hstep
    obtain ⟨w', read'⟩ := u
    obtain rfl : read' = s.read := hread
    cases l with
    | entry | testRead | testEnd => exact honly.elim
    | others call =>
      obtain ⟨t, hcall, rfl⟩ := hstep
      cases call with
      | feed ch =>
        obtain rfl : t = consoleRxFeed ch s.shell.tty := hcall
        exact h.feed honly.1 honly.2 htold'
      | read len nonblock => exact honly.elim
      | setLflag lflag =>
        obtain rfl : t = consoleTtySetLflag lflag s.shell.tty := hcall
        have hmask : lflag &&& ttyLflagSupported &&& ttyLflagIcanon = lflag &&& ttyLflagIcanon := by
          rw [BitVec.and_assoc]
          rfl
        have hcan : (consoleTtySetLflag lflag s.shell.tty).console.canonical = true := by
          refine decide_eq_true ?_
          change lflag &&& ttyLflagSupported &&& ttyLflagIcanon ≠ 0
          rw [hmask]
          exact honly
        exact h.flags rfl hcan rfl rfl htold'
      | other =>
        have hsame : t.console =
            { s.shell.tty.console with lflag := s.shell.tty.console.lflag } := hcall
        refine h.flags hsame ?_ rfl rfl htold'
        rw [hsame]
        exact h.canonical

theorem reading_alone (h : Reachable onlyReads (s, log)) : s.Alone log := by
  refine h.invariant (P := fun p => p.1.Alone p.2) ?_ ?_
  · rintro ⟨⟨w, read⟩, log⟩ ⟨⟨hw, hread⟩, hlog⟩
    obtain rfl : read = none := hread
    obtain rfl : log = [] := hlog
    have htold := told_init hw
    obtain ⟨t₀, line, rfl⟩ := hw
    have hcontents : (consoleInit t₀).console.contents = [] := contents_init t₀
    refine ⟨⟨[], [], htold⟩, rfl, ?_, ?_, ?_, ?_, fun r hr => by cases hr⟩
    · change decide ((7 : BitVec 32) &&& ttyLflagIcanon ≠ 0) = true
      decide
    · change ((consoleInit t₀).console.view.credit (0, 0)).Counted
      rw [ConsoleView.credit_zero]
      exact counted_init t₀
    · change [] = (lineOf (consoleInit t₀).console.contents).fragment
      rw [hcontents]
      rfl
    · rw [Reading.left, Shell.unread, hcontents]
      rfl
  · rintro ⟨s, log⟩ l ⟨u, log'⟩ hI ⟨⟨honly, hs⟩, rfl⟩
    exact (hI.step honly hs).1

/-- The task carries on by itself. -/
theorem Reading.Alone.run (h : s.Alone log) {labels : List ReadingLabel}
    {p : Reading × List ShellNote} (hrun : Run onlyReads (s, log) labels p)
    (hown : ∀ label ∈ labels, label.own = true) :
    p.1.Alone p.2 ∧ typedBytes p.2 = typedBytes log ∧ (p.1.left = [] ∨
      18 * p.1.waiting + labels.length + s.progress ≤ 18 * s.waiting + p.1.progress) := by
  induction hrun with
  | nil => exact ⟨h, rfl, .inr (le_refl _)⟩
  | @snoc labels label p q hrun hs ih =>
    obtain ⟨halone, htyped, hcloser⟩ := ih fun k hk => hown k (List.mem_append_left _ hk)
    obtain ⟨⟨honly, hstep⟩, hlog⟩ := hs
    obtain ⟨hnext, hcase⟩ := halone.step honly hstep
    obtain ⟨⟨hquiet, hadvances⟩, hsame⟩ := hcase (hown label (by simp))
    rw [hlog]
    refine ⟨hnext, hsame.trans htyped, ?_⟩
    rcases hadvances with hnil | hless
    · exact .inl (hquiet hnil)
    · rcases hcloser with hnil | hle
      · exact .inl (hquiet hnil)
      · right
        rw [List.length_append, List.length_singleton]
        omega

theorem Reading.progress_le (s : Reading) : s.progress ≤ 17 := by
  obtain ⟨w, read⟩ := s
  cases read with
  | none => exact Nat.zero_le 17
  | some r =>
    change r.progress ≤ 17
    unfold ByteRead.progress
    split <;> (try split_ifs) <;> omega

theorem Reading.waiting_le (s : Reading) : s.waiting ≤ s.shell.unread.length + 1 := by
  obtain ⟨w, read⟩ := s
  cases read with
  | none => exact Nat.le_succ _
  | some r =>
    refine Nat.add_le_add_left ?_ _
    change (if r.past then 1 else 0) ≤ 1
    split_ifs <;> omega

theorem Reading.left_eq_nil (s : Reading) (h : s.waiting = 0) : s.left = [] := by
  obtain ⟨w, read⟩ := s
  obtain ⟨hunread, hread⟩ := Nat.add_eq_zero_iff.mp h
  have hnil : w.unread = [] := List.length_eq_zero_iff.mp hunread
  rw [Reading.left, hnil]
  cases read with
  | none => rfl
  | some r =>
    have hpast : r.past = false := by
      by_contra hpast
      rw [Bool.not_eq_false] at hpast
      change (if r.past then 1 else 0) = 0 at hread
      rw [if_pos hpast] at hread
      cases hread
    change r.held ++ [] = []
    rw [ByteRead.held, hpast]
    rfl

/-- A line that is carried out is one of those that have been typed. -/
theorem Reading.Alone.returns_harmless (h : Reading.Alone ⟨w, some r⟩ log)
    (hplace : r.call.place = .done) (hharmless : HarmlessLines (typedBytes log)) :
    OnlyReader ⟨w, some r⟩ .ret := by
  obtain ⟨lines, pending, htold⟩ := h.told
  have htyped := h.typed
  have hsound := h.sound r rfl
  obtain ⟨⟨t, place, canonical, sawEof, tail, byte, dst, ret⟩, loaded⟩ := r
  obtain rfl : place = .done := hplace
  intro line hline
  obtain ⟨rfl, rfl⟩ | ⟨b, rfl, rfl⟩ := hsound
  · rw [ret_handled, if_neg fun h => absurd h.1 (lt_irrefl _)] at hline
    cases hline
  · by_cases hb : b = asciiLf
    · subst hb
      rw [ret_handled, if_pos ⟨zero_lt_one, rfl⟩, List.mem_singleton] at hline
      obtain ⟨lines', pending', hrest⟩ := exists_isLines (w.unread.filter (· ≠ ttyCcVeof))
      have hlines := htold.isLines.lf.append hrest
      rw [List.append_assoc] at hlines
      replace htyped : typedBytes log =
          tookBytes log ++ ([asciiLf] ++ w.unread.filter (· ≠ ttyCcVeof)) := htyped
      rw [← htyped] at hlines
      rw [hline, htold.keeps.command h.testing]
      exact hharmless _ _ hlines pending (by simp)
    · rw [ret_handled, if_neg fun h => hb h.2] at hline
      cases hline

theorem Reading.Alone.exists_step (h : s.Alone log) (hharmless : HarmlessLines (typedBytes log)) :
    ∃ l u, l.own = true ∧ OnlyReader s l ∧ shellReads.step s l u := by
  obtain ⟨w, read⟩ := s
  cases read with
  | none => exact ⟨.call, _, rfl, trivial, rfl, h.testing, rfl⟩
  | some r =>
    by_cases hplace : r.call.place = .done
    · obtain ⟨w', hfinish, -⟩ := h.ret hplace
      exact ⟨.ret, _, rfl, h.returns_harmless hplace hharmless, r, rfl, hplace, hfinish⟩
    · exact ⟨.statement, _, rfl, trivial, r, rfl, hplace, rfl⟩

theorem Reading.Alone.exists_run (h : s.Alone log) (hharmless : HarmlessLines (typedBytes log))
    (n : ℕ) : ∃ labels u log', Run onlyReads (s, log) labels (u, log') ∧
      (∀ label ∈ labels, label.own = true) ∧ labels.length = n := by
  induction n with
  | zero => exact ⟨[], s, log, .nil, by simp, rfl⟩
  | succ n ih =>
    obtain ⟨labels, u, log', hrun, hown, hlength⟩ := ih
    obtain ⟨halone, htyped, -⟩ := h.run hrun hown
    obtain ⟨l, v, hl, honly, hs⟩ := halone.exists_step (htyped ▸ hharmless)
    refine ⟨labels ++ [l], v, log' ++ readingNotes u l, hrun.snoc ⟨⟨honly, hs⟩, rfl⟩, ?_, ?_⟩
    · intro k hk
      rcases List.mem_append.mp hk with hk | hk
      · exact hown k hk
      · rw [List.mem_singleton.mp hk]
        exact hl
    · rw [List.length_append, hlength]
      rfl

/-- Only a decrement loads a counter. -/
theorem loaded_place (h : Reachable shellReads s) (hread : s.read = some r) (hr : r.loaded ≠ none) :
    r.call.place = .lineCount ∨ r.call.place = .eofCount := by
  refine h.invariant (P := fun s => ∀ r, s.read = some r → r.loaded ≠ none →
    r.call.place = .lineCount ∨ r.call.place = .eofCount) ?_ ?_ r hread hr
  · rintro s ⟨-, hnone⟩ r hread
    cases hnone.symm.trans hread
  · intro s l u hI hs r hread hr
    cases l with
    | call =>
      obtain ⟨-, -, rfl⟩ := hs
      obtain rfl := Option.some.inj hread
      exact absurd rfl hr
    | statement =>
      obtain ⟨r', -, -, rfl⟩ := hs
      obtain rfl := Option.some.inj hread
      exact next_loaded _ hr
    | ret =>
      obtain ⟨r', -, -, hfinish⟩ := hs
      obtain ⟨w, -, rfl⟩ := Option.map_eq_some_iff.mp hfinish
      cases hread
    | shell l => exact hI r (hs.2.2.2.symm.trans hread) hr

/-- A character that changes a counter between its load and its store is not counted. -/
theorem Reading.Alone.raced (h : s.Alone log) (hreach : Reachable shellReads s)
    (hraces : s.Races ch) : ∃ u v, shellReads.step s (.shell (.others (.feed ch))) u ∧
      shellReads.step u .statement v ∧ ¬ v.Counted := by
  obtain ⟨r, n, hread, hloaded, hne⟩ := hraces
  have hplace := loaded_place hreach hread (by rw [hloaded]; exact Option.some_ne_none n)
  obtain ⟨w, read⟩ := s
  obtain rfl : read = some r := hread
  have hfed := h.counted.feed w.tty.console.contents_length_le ch
  rw [ConsoleView.credit_feed, ← feed_view] at hfed
  refine ⟨⟨{ w with tty := consoleRxFeed ch w.tty }, some r⟩,
    Reading.next ⟨{ w with tty := consoleRxFeed ch w.tty }, some r⟩ r,
    ⟨(fun h => by cases h), fun _ => rfl, ⟨_, rfl, rfl⟩, rfl⟩, ⟨r, rfl, ?_, rfl⟩,
    fun hcounted => ?_⟩
  · rcases hplace with hplace | hplace <;> rw [hplace] <;> decide
  obtain ⟨⟨t, place, canonical, sawEof, tail, byte, dst, ret⟩, loaded⟩ := r
  obtain rfl : loaded = some n := hloaded
  rcases hplace with hplace | hplace
  · obtain rfl : place = .lineCount := hplace
    have hlines : (n - 1 + 1).toNat = ((consoleRxFeed ch w.tty).console.lines + 0).toNat :=
      hcounted.lines.trans hfed.lines.symm
    rw [sub_add_cancel, add_zero] at hlines
    exact hne (BitVec.eq_of_toNat_eq hlines).symm
  · obtain rfl : place = .eofCount := hplace
    have heofs : (n - 1 + 1).toNat = ((consoleRxFeed ch w.tty).console.eofs + 0).toNat :=
      hcounted.eofs.trans hfed.eofs.symm
    rw [sub_add_cancel, add_zero] at heofs
    exact hne (BitVec.eq_of_toNat_eq heofs).symm

end Alone

/-- While the task is the only reader of a console in canonical mode that has room, and no character
changes a counter between its load and its store, the commands that it carries out are lines that
have been typed and edited, each once and in order. It has carried out all of them when it has
taken 18 steps of its own for each byte that was waiting and for a call that was under way, and it
can take them as long as no such line begins the self test or leaves canonical mode. A character
that does change a counter there is not counted. -/
theorem init_task_handles_typed_lines {s : Reading} {log : List ShellNote}
    (h : Reachable onlyReads (s, log)) :
    (∃ lines pending, IsLines (tookBytes log) lines pending ∧
      typedBytes log = tookBytes log ++ s.left ∧ handledLines log = lines.map shellLine) ∧
    (∀ labels u log', Run onlyReads (s, log) labels (u, log') →
        (∀ label ∈ labels, label.own = true) → 18 * (s.shell.unread.length + 1) ≤ labels.length →
      ∃ lines pending, IsLines (typedBytes log) lines pending ∧
        handledLines log' = lines.map shellLine) ∧
    (HarmlessLines (typedBytes log) → ∀ n, ∃ labels u log',
      Run onlyReads (s, log) labels (u, log') ∧
      (∀ label ∈ labels, label.own = true) ∧ labels.length = n) ∧
    ∀ ch, s.Races ch → ∃ u v, shellReads.step s (.shell (.others (.feed ch))) u ∧
      shellReads.step u .statement v ∧ ¬ v.Counted := by
  have halone := reading_alone h
  have hreach : Reachable shellReads s := by
    obtain ⟨p, labels, hinit, hrun⟩ := h
    exact ⟨p.1, labels, hinit.1, hrun.of_logged.of_restrict⟩
  obtain ⟨lines, pending, htold⟩ := halone.told
  refine ⟨⟨lines, pending, htold.isLines, halone.typed, htold.handled⟩, ?_, halone.exists_run,
    fun ch => halone.raced hreach⟩
  intro labels u log' hrun hown hlength
  obtain ⟨hlater, htyped, hcloser⟩ := halone.run hrun hown
  obtain ⟨lines', pending', htold'⟩ := hlater.told
  have hleft : u.left = [] := by
    rcases hcloser with hnil | hle
    · exact hnil
    · replace hle : 18 * u.waiting + labels.length + s.progress ≤ 18 * s.waiting + u.progress := hle
      have hs := s.waiting_le
      have hu := u.progress_le
      exact u.left_eq_nil (by omega)
  have hread := hlater.typed
  rw [hleft, List.append_nil, htyped] at hread
  exact ⟨lines', pending', hread ▸ htold'.isLines, htold'.handled⟩

section Steps

variable {s : Reading} {w : Shell} {log : List ShellNote}

theorem reading_feed (h : Reachable onlyReads (s, log)) (c : BitVec 8)
    (hroom : s.shell.tty.console.contents.length < 255)
    (hloaded : ∀ r, s.read = some r → r.loaded = none) :
    Reachable onlyReads (⟨{ s.shell with tty := consoleRxFeed c s.shell.tty }, s.read⟩,
      log ++ shellNotes s.shell (.others (.feed c))) := by
  have hraces : ¬ s.Races c := by
    rintro ⟨r, n, hread, hn, -⟩
    cases (hloaded r hread).symm.trans hn
  exact h.step (l := .shell (.others (.feed c))) ⟨⟨⟨hroom, hraces⟩, (fun h => by cases h),
    fun _ => rfl, ⟨_, rfl, rfl⟩, rfl⟩, rfl⟩

end Steps

/-- A letter is typed. The task is scheduled, and in its call the letter is erased and another is
typed, with the end of the line. This line is carried out. -/
theorem init_task_handles_typed_lines_erased : ∃ s log labels u log',
    Reachable onlyReads (s, log) ∧
    s.read ≠ none ∧ typedBytes log = [0x62, asciiLf] ∧
    Run onlyReads (s, log) labels (u, log') ∧
    handledLines log' = [[0x62]] := by
  have hstart : Reachable onlyReads
      (⟨⟨consoleInit .zero, klogLevelInfo, ⟨fun _ => 0, 0, 0⟩, false⟩, none⟩, []) :=
    .of_init ⟨⟨⟨.zero, _, rfl⟩, rfl⟩, rfl⟩
  have hletter := reading_feed hstart 0x61 (by decide) (fun r hr => by cases hr)
  have hcall : Reachable onlyReads (_, _) :=
    hletter.step (l := .call) ⟨⟨trivial, rfl, rfl, rfl⟩, rfl⟩
  have hmode : Reachable onlyReads (_, _) :=
    hcall.step (l := .statement) ⟨⟨trivial, _, rfl, (fun h => by cases h), rfl⟩, rfl⟩
  have hloaded {w : Shell} {r : ByteRead} (hr : r.loaded = none) :
      ∀ r', (Reading.mk w (some r)).read = some r' → r'.loaded = none := by
    intro r' hr'
    rw [← Option.some.inj hr']
    exact hr
  obtain ⟨s, log, htyped, hread, hbytes, hunread⟩ : ∃ s log,
      Reachable onlyReads (s, log) ∧ s.read ≠ none ∧
      typedBytes log = [0x62, asciiLf] ∧ s.shell.unread.length = 2 :=
    ⟨_, _, reading_feed (reading_feed (reading_feed hmode ttyCcVeraseDel (by decide)
      (hloaded rfl)) 0x62 (by decide) (hloaded rfl)) asciiCr (by decide) (hloaded rfl),
      Option.some_ne_none _, by decide, by decide⟩
  obtain ⟨-, hall, hcan, -⟩ := init_task_handles_typed_lines htyped
  have hline : IsLines [0x62, asciiLf] [[0x62]] [] := ⟨rfl, by decide, by decide⟩
  have hharmless : HarmlessLines (typedBytes log) := by
    intro lines pending hlines line hmem
    rw [hbytes] at hlines
    obtain ⟨rfl, -⟩ := hlines.unique hline
    rw [List.mem_singleton.mp hmem]
    exact ⟨by decide, by decide⟩
  obtain ⟨labels, u, log', hrun, hown, hlength⟩ := hcan hharmless 54
  obtain ⟨lines, pending, hlines, hhandled⟩ := hall labels u log' hrun hown (by omega)
  rw [hbytes] at hlines
  obtain ⟨rfl, -⟩ := hlines.unique hline
  refine ⟨s, log, labels, u, log', htyped, hread, hbytes, hrun, hhandled.trans ?_⟩
  decide

end LampVm
