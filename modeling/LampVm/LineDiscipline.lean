import LampVm.Console
import LampVm.Transition

/-!
# The line discipline

The console in any order of bytes fed, reads and mode changes. In canonical mode it is a
line discipline: a stream of committed bytes, which readers consume record by record, and
a fragment that is still being edited and that no reader sees. The two counters agree
with the ring as long as no raw read takes an end-of-file mark.
-/
namespace LampVm

open Transition

/-! ## Calls -/

inductive ConsoleCall
  | feed (ch : BitVec 8)
  | read (len : BitVec 32) (nonblock : Bool)
  | setLflag (lflag : BitVec 32)
  | other

/-- The rest of the kernel leaves the console's variables alone. -/
def consoleCalls : System Tty ConsoleCall where
  init t := ∃ t₀, t = consoleInit t₀
  step t call u :=
    match call with
    | .feed ch => u = consoleRxFeed ch t
    | .read len nonblock => u = (consoleRead len nonblock t).2.2
    | .setLflag lflag => u = consoleTtySetLflag lflag t
    | .other => u.console = t.console

/-! ## Counting -/

section Counting

variable {v : ConsoleView} {t u : Tty}

/-- Editable bytes are not counted. -/
theorem count_rtakeWhile {m : BitVec 8} (hm : editable m = false) (xs : List (BitVec 8)) :
    (xs.rtakeWhile editable).count m = 0 := by
  rw [List.count_eq_zero]
  intro hmem
  have hed := List.mem_rtakeWhile_imp hmem
  rw [hm] at hed
  cases hed

theorem count_rdropWhile {m : BitVec 8} (hm : editable m = false) (xs : List (BitVec 8)) :
    (xs.rdropWhile editable).count m = xs.count m := by
  have hsplit := congrArg (List.count m) (List.rdropWhile_append_rtakeWhile (p := editable) (l := xs))
  rw [List.count_append, count_rtakeWhile hm] at hsplit
  exact hsplit

theorem count_concat {m ch : BitVec 8} (hm : editable m = false) (hch : editable ch = true)
    (xs : List (BitVec 8)) : (xs ++ [ch]).count m = xs.count m := by
  have hne : ch ≠ m := by
    rintro rfl
    rw [hm] at hch
    cases hch
  rw [List.count_append, List.count_singleton, if_neg (by simpa using hne), add_zero]

theorem ConsoleView.Counted.erase (h : v.Counted) : v.erase.Counted :=
  ⟨h.lines.trans (count_rdropWhile rfl _).symm, h.eofs.trans (count_rdropWhile rfl _).symm⟩

theorem ConsoleView.Counted.pop (h : v.Counted) : v.pop.Counted := by
  rcases v.pop_cases with ⟨-, hpop⟩ | ⟨xs, ch, hch, hconcat, hpop⟩
  · rw [hpop]
    exact h
  · have hlines := h.lines
    have heofs := h.eofs
    rw [hconcat] at hlines heofs
    rw [hpop]
    exact ⟨hlines.trans (count_concat rfl hch xs), heofs.trans (count_concat rfl hch xs)⟩

/-- A counter below the size of the ring does not wrap. -/
theorem count_push {x : BitVec 32} {m : BitVec 8} {xs : List (BitVec 8)} (hlen : xs.length ≤ 255)
    (h : x.toNat = xs.count m) (ch : BitVec 8) :
    (if ch = m then x + 1 else x).toNat = (xs ++ [ch]).count m := by
  have hle : xs.count m ≤ xs.length := List.count_le_length
  rw [List.count_append, List.count_singleton, ← h]
  by_cases hch : ch = m
  · have hone : (1 : BitVec 32).toNat = 1 := rfl
    rw [if_pos hch, if_pos (by simpa using hch), BitVec.toNat_add, hone]
    omega
  · rw [if_neg hch, if_neg (by simpa using hch), add_zero]

theorem ConsoleView.Counted.push (h : v.Counted) (hlen : v.contents.length ≤ 255) (ch : BitVec 8) :
    (v.push ch).Counted := by
  by_cases hfull : v.contents.length = 255
  · rw [ConsoleView.push, if_pos hfull]
    exact h
  · rw [ConsoleView.push, if_neg hfull]
    exact ⟨count_push hlen h.lines ch, count_push hlen h.eofs ch⟩

theorem ConsoleView.Counted.feed (h : v.Counted) (hlen : v.contents.length ≤ 255) (ch : BitVec 8) :
    (v.feed ch).Counted := by
  have hle : v.erase.contents.length ≤ 255 :=
    le_trans (List.rdropWhile_prefix editable v.contents).length_le hlen
  unfold ConsoleView.feed
  generalize (if ch = asciiCr then asciiLf else ch) = ch'
  dsimp only
  split_ifs
  · exact h.erase.push hle _
  · exact h.erase
  · exact h.pop
  · exact h.push hlen _
  · exact h
  · exact h.push hlen _

/-- What a read leaves of the console. -/
theorem read_console (len : BitVec 32) (nonblock : Bool) (t : Tty) :
    (consoleRead len nonblock t).2.2.console =
      if len = 0 ∨ t.console.canonical ∧ t.console.lines = 0 ∧ t.console.eofs = 0 then t.console
      else (consoleReadLoop t.console.canonical len.toNat t.console).2.2 := by
  by_cases hlen : len = 0
  · rw [if_pos (.inl hlen)]
    simp only [consoleRead, if_pos hlen]
  · by_cases hnone : t.console.canonical ∧ t.console.lines = 0 ∧ t.console.eofs = 0
    · rw [if_pos (.inr hnone), consoleRead_of_none hlen hnone, readBlocked_console]
    · rw [if_neg (not_or.mpr ⟨hlen, hnone⟩), consoleRead_of_some hlen hnone rfl]
      split_ifs
      · rfl
      · rfl
      · exact readBlocked_console _ _

/-- No raw read takes an end-of-file mark. -/
def NoRawEof (t : Tty) (call : ConsoleCall) : Prop :=
  ∀ len nonblock, call = .read len nonblock → t.console.canonical = false →
    ttyCcVeof ∉ t.console.contents.take len.toNat

theorem counted_read_iff (h : t.console.view.Counted) (len : BitVec 32) (nonblock : Bool) :
    (consoleRead len nonblock t).2.2.console.view.Counted ↔
      NoRawEof t (.read len nonblock) := by
  rw [read_console]
  split_ifs with hsame
  · refine iff_of_true h ?_
    rintro len' nonblock' ⟨⟩ hraw
    rcases hsame with rfl | ⟨hcan, -⟩
    · simp
    · rw [hraw] at hcan
      cases hcan
  · cases hcan : t.console.canonical with
    | true =>
      obtain ⟨c', hrun, -, hcounted, -⟩ := readLoop_canonical (n := len.toNat) h
      rw [hrun]
      refine iff_of_true hcounted ?_
      rintro len' nonblock' ⟨⟩ hraw
      rw [hcan] at hraw
      cases hraw
    | false =>
      obtain ⟨c', hrun, hcontents, hlines, heofs, -⟩ := readLoop_raw (n := len.toNat) h.lines
      rw [hrun]
      have hsplit := congrArg (List.count ttyCcVeof)
        (List.take_append_drop len.toNat t.console.contents)
      rw [List.count_append] at hsplit
      have hcount : t.console.eofs.toNat = t.console.contents.count ttyCcVeof := h.eofs
      have htake : c'.view.Counted ↔
          (t.console.contents.take len.toNat).count ttyCcVeof = 0 := by
        have heofs' : c'.view.eofs.toNat = t.console.eofs.toNat := congrArg BitVec.toNat heofs
        have hdrop : c'.view.contents = t.console.contents.drop len.toNat := hcontents
        constructor
        · intro hc
          have := hc.eofs
          rw [heofs', hdrop] at this
          omega
        · intro hzero
          refine ⟨hlines, ?_⟩
          rw [heofs', hdrop]
          omega
      rw [htake, List.count_eq_zero]
      constructor
      · rintro hmem len' nonblock' ⟨⟩ -
        exact hmem
      · intro hno
        exact hno len nonblock rfl hcan

/-- Only a raw read that takes an end-of-file mark makes the counters wrong. -/
theorem counted_step_iff (h : t.console.view.Counted) (call : ConsoleCall)
    (hs : consoleCalls.step t call u) : u.console.view.Counted ↔ NoRawEof t call := by
  cases call with
  | feed ch =>
    obtain rfl : u = consoleRxFeed ch t := hs
    rw [feed_view]
    exact iff_of_true (h.feed t.console.contents_length_le ch) nofun
  | read len nonblock =>
    obtain rfl : u = (consoleRead len nonblock t).2.2 := hs
    exact counted_read_iff h len nonblock
  | setLflag lflag =>
    obtain rfl : u = consoleTtySetLflag lflag t := hs
    exact iff_of_true ⟨h.lines, h.eofs⟩ nofun
  | other =>
    rw [show u.console = t.console from hs]
    exact iff_of_true h nofun

theorem contents_init (t : Tty) : (consoleInit t).console.contents = [] := Ring.contents_self

theorem view_init (t : Tty) : (consoleInit t).console.view = ⟨[], 0, 0, 7⟩ := by
  rw [Console.view, contents_init]
  rfl

theorem counted_init (t : Tty) : (consoleInit t).console.view.Counted := by
  rw [view_init]
  exact ⟨rfl, rfl⟩

end Counting

variable {t : Tty}

/-- The counters match the ring in every run without a raw read of an end-of-file mark,
and the first such read makes them differ. -/
theorem console_counters_match (h : Reachable (consoleCalls.restrict NoRawEof) t) :
    t.console.view.Counted ∧
      ∀ call u, consoleCalls.step t call u → (u.console.view.Counted ↔ NoRawEof t call) := by
  have hinit (t : Tty) (ht : (consoleCalls.restrict NoRawEof).init t) :
      t.console.view.Counted := by
    obtain ⟨t₀, rfl⟩ := ht
    exact counted_init t₀
  have hstep (t : Tty) (call : ConsoleCall) (u : Tty) (hI : t.console.view.Counted)
      (hs : (consoleCalls.restrict NoRawEof).step t call u) : u.console.view.Counted :=
    (counted_step_iff hI call hs.2).mpr hs.1
  have hcounted := h.invariant hinit hstep
  exact ⟨hcounted, fun call u hs => counted_step_iff hcounted call hs⟩

/-- A console at rest, as the kernel finds it. -/
def Tty.zero : Tty := ⟨⟨fun _ => 0, 0, 0, 0, 0, 0, 0⟩, schedInit, []⟩

theorem console_counters_match_line : ∃ t, Reachable (consoleCalls.restrict NoRawEof) t ∧
    t.console.contents = [0x61, asciiLf] ∧ t.console.lines = 1 ∧ t.console.view.Counted := by
  have hstart : Reachable (consoleCalls.restrict NoRawEof) (consoleInit .zero) :=
    .of_init ⟨.zero, rfl⟩
  have hreach := (hstart.step (l := .feed 0x61) ⟨nofun, rfl⟩).step (l := .feed asciiLf) ⟨nofun, rfl⟩
  have hview : (consoleRxFeed asciiLf (consoleRxFeed 0x61 (consoleInit .zero))).console.view =
      ⟨[0x61, asciiLf], 1, 0, 7⟩ := by
    rw [feed_view, feed_view, view_init]
    rfl
  exact ⟨_, hreach, congrArg ConsoleView.contents hview, congrArg ConsoleView.lines hview,
    (console_counters_match hreach).1⟩

/-- In raw mode an end-of-file mark is fed and read. The ring is empty then, and the
counter says that it holds a mark. -/
theorem console_counter_drifts : ∃ t, Reachable consoleCalls t ∧ t.console.contents = [] ∧
    t.console.eofs = 1 := by
  let raw := consoleTtySetLflag 0 (consoleInit .zero)
  let fed := consoleRxFeed ttyCcVeof raw
  have hstart : Reachable consoleCalls (consoleInit .zero) := .of_init ⟨.zero, rfl⟩
  have hset : consoleCalls.step (consoleInit .zero) (.setLflag 0) raw := rfl
  have hfeed : consoleCalls.step raw (.feed ttyCcVeof) fed := rfl
  have hstep : consoleCalls.step fed (.read 1 true) (consoleRead 1 true fed).2.2 := rfl
  have hraw : raw.console.view = ⟨[], 0, 0, 0⟩ :=
    congrArg (fun v : ConsoleView => { v with lflag := 0 }) (view_init .zero)
  have hfed : fed.console.view = ⟨[ttyCcVeof], 0, 1, 0⟩ := by
    rw [feed_view, hraw]
    rfl
  have hcontents : fed.console.contents = [ttyCcVeof] := congrArg ConsoleView.contents hfed
  have hcan : fed.console.canonical = false := by
    have hflag : fed.console.lflag = 0 := congrArg ConsoleView.lflag hfed
    rw [Console.canonical, hflag]
    rfl
  have hlines : fed.console.lines.toNat = fed.console.contents.count asciiLf := by
    rw [hcontents, show fed.console.lines = 0 from congrArg ConsoleView.lines hfed]
    rfl
  obtain ⟨c', hrun, hdrop, -, heofs, -⟩ := readLoop_raw (n := 1) hlines
  have hread : (consoleRead 1 true fed).2.2.console = c' := by
    rw [read_console, if_neg (by rw [hcan]; decide), hcan]
    exact congrArg (fun r => r.2.2) hrun
  refine ⟨_, ((hstart.step hset).step hfeed).step hstep, ?_, ?_⟩
  · rw [hread, hdrop, hcontents]
    rfl
  · rw [hread, heofs]
    exact congrArg ConsoleView.eofs hfed

/-! ## Committed bytes and the fragment -/

/-- What a line discipline knows: the bytes that readers may have, and the fragment of a
line that is still being typed. -/
structure Line where
  committed : List (BitVec 8)
  fragment : List (BitVec 8)
  deriving DecidableEq, Repr

/-- The bytes that a typed character commits. -/
def Line.commits (l : Line) (isig : Bool) (ch : BitVec 8) : List (BitVec 8) :=
  if ch = ttyCcVintr ∧ isig then [asciiLf]
  else if isMark ch then l.fragment ++ [ch]
  else []

/-- What it makes of the fragment. -/
def Line.edit (l : Line) (isig : Bool) (ch : BitVec 8) : List (BitVec 8) :=
  if ch = ttyCcVintr ∧ isig then []
  else if isMark ch ∨ ch = ttyCcVkill then []
  else if ch = ttyCcVeraseBs ∨ ch = ttyCcVeraseDel then l.fragment.dropLast
  else if ch = 0 then l.fragment
  else l.fragment ++ [ch]

def Line.feed (l : Line) (isig : Bool) (ch : BitVec 8) : Line :=
  let ch := if ch = asciiCr then asciiLf else ch
  ⟨l.committed ++ l.commits isig ch, l.edit isig ch⟩

/-- A read of at most `n` bytes: up to and including the first line end, or up to the
first end-of-file mark, which is consumed; the fragment is not touched. -/
def Line.read (l : Line) (n : ℕ) : List (BitVec 8) × Line :=
  let body := l.committed.takeWhile editable
  if n ≤ body.length then (body.take n, ⟨l.committed.drop n, l.fragment⟩)
  else
    match l.committed.dropWhile editable with
    | [] => ([], l)
    | mark :: rest =>
      (if mark = ttyCcVeof then body else body ++ [mark], ⟨rest, l.fragment⟩)

section Lists

variable {xs : List (BitVec 8)} {ch : BitVec 8}

theorem ne_of_editable (h : editable ch = true) : ch ≠ ttyCcVeof ∧ ch ≠ asciiLf := by
  constructor
  · rintro rfl
    cases h
  · rintro rfl
    cases h

theorem filter_of_editable (h : ∀ b ∈ xs, editable b = true) :
    xs.filter (· ≠ ttyCcVeof) = xs := by
  rw [List.filter_eq_self]
  intro b hb
  exact decide_eq_true (ne_of_editable (h b hb)).1

/-- The line that a list of bytes stands for. -/
def lineOf (xs : List (BitVec 8)) : Line := ⟨xs.rdropWhile editable, xs.rtakeWhile editable⟩

theorem lineOf_append (xs : List (BitVec 8)) :
    (lineOf xs).committed ++ (lineOf xs).fragment = xs :=
  List.rdropWhile_append_rtakeWhile

theorem lineOf_concat_editable (h : isMark ch = false) (xs : List (BitVec 8)) :
    lineOf (xs ++ [ch]) = ⟨(lineOf xs).committed, (lineOf xs).fragment ++ [ch]⟩ := by
  have hed : editable ch = true := by rw [editable, h]; rfl
  simp only [lineOf, List.rdropWhile_concat_pos _ _ _ hed, List.rtakeWhile_concat_pos _ _ _ hed]

/-- A mark commits the fragment. -/
theorem lineOf_concat_mark (h : isMark ch = true) (xs : List (BitVec 8)) :
    lineOf (xs ++ [ch]) = ⟨(lineOf xs).committed ++ ((lineOf xs).fragment ++ [ch]), []⟩ := by
  have hed : ¬ editable ch = true := by rw [editable, h]; decide
  rw [← List.append_assoc, lineOf_append]
  simp only [lineOf, List.rdropWhile_concat_neg _ _ _ hed, List.rtakeWhile_concat_neg _ _ _ hed]

/-- Committed bytes end with a mark. -/
theorem lineOf_append_of {committed fragment : List (BitVec 8)}
    (hc : committed.rdropWhile editable = committed) (hf : ∀ b ∈ fragment, editable b = true) :
    lineOf (committed ++ fragment) = ⟨committed, fragment⟩ := by
  induction fragment using List.reverseRecOn with
  | nil =>
    have hsplit := lineOf_append committed
    simp only [lineOf, hc, List.append_right_eq_self] at hsplit
    simp only [lineOf, List.append_nil, hc, hsplit]
  | append_singleton fragment b ih =>
    have hb : isMark b = false := by simpa [editable] using hf b (by simp)
    rw [← List.append_assoc, lineOf_concat_editable hb, ih fun b' hb' => hf b' (by simp [hb'])]

theorem lineOf_erase (xs : List (BitVec 8)) :
    lineOf (xs.rdropWhile editable) = ⟨(lineOf xs).committed, []⟩ := by
  have h : lineOf (xs.rdropWhile editable ++ []) = ⟨xs.rdropWhile editable, []⟩ :=
    lineOf_append_of (List.rdropWhile_idempotent editable xs) (by simp)
  rwa [List.append_nil] at h

/-- Feeding a character is editing the line. -/
theorem lineOf_feed {v : ConsoleView} (hcan : v.canonical = true)
    (hroom : v.contents.length < 255) (ch : BitVec 8) :
    lineOf (v.feed ch).contents =
      (lineOf v.contents).feed (decide (v.lflag &&& ttyLflagIsig ≠ 0)) ch := by
  have hpush {w : ConsoleView} (hw : w.contents.length < 255) (b : BitVec 8) :
      (w.push b).contents = w.contents ++ [b] := by
    rw [ConsoleView.push, if_neg (by omega)]
  have herase : v.erase.contents.length < 255 :=
    lt_of_le_of_lt (List.rdropWhile_prefix editable v.contents).length_le hroom
  unfold ConsoleView.feed Line.feed
  generalize (if ch = asciiCr then asciiLf else ch) = b
  dsimp only
  simp only [hcan, true_and, Line.commits, Line.edit, decide_eq_true_eq]
  by_cases hintr : b = ttyCcVintr ∧ v.lflag &&& ttyLflagIsig ≠ 0
  · rw [if_pos hintr, if_pos hintr, if_pos hintr, hpush herase, lineOf_concat_mark rfl]
    have hline : lineOf v.erase.contents = ⟨(lineOf v.contents).committed, []⟩ :=
      lineOf_erase v.contents
    rw [hline]
    rfl
  rw [if_neg hintr, if_neg hintr, if_neg hintr]
  by_cases hkill : b = ttyCcVkill
  · have hmark : ¬ isMark b = true := by rw [hkill]; decide
    rw [if_pos hkill, if_neg hmark, if_pos (.inr hkill), List.append_nil]
    exact lineOf_erase v.contents
  rw [if_neg hkill]
  by_cases herased : b = ttyCcVeraseBs ∨ b = ttyCcVeraseDel
  · have hmark : ¬ isMark b = true := by rcases herased with h | h <;> rw [h] <;> decide
    rw [if_pos herased, if_neg hmark, if_neg (not_or.mpr ⟨hmark, hkill⟩), if_pos herased,
      List.append_nil]
    rcases v.pop_cases with ⟨hself, hpop⟩ | ⟨xs, b', hb', hconcat, hpop⟩
    · have hnone := lineOf_erase v.contents
      rw [hself] at hnone
      rw [hpop, hnone]
      rfl
    · have hb : isMark b' = false := by simpa [editable] using hb'
      rw [hpop, hconcat, lineOf_concat_editable hb, List.dropLast_concat]
  rw [if_neg herased]
  by_cases hmark : isMark b = true
  · have hzero : ¬ b = 0 := by
      rintro rfl
      revert hmark
      decide
    rw [if_neg hzero, ite_self, if_pos hmark, if_pos (Or.inl hmark), hpush hroom,
      lineOf_concat_mark hmark]
  · have heof : ¬ b = ttyCcVeof := by
      rintro rfl
      exact hmark (by decide)
    rw [if_neg heof, if_neg hmark, if_neg (not_or.mpr ⟨hmark, hkill⟩), if_neg herased,
      List.append_nil]
    by_cases hzero : b = 0
    · rw [if_pos hzero, if_pos hzero]
    · rw [if_neg hzero, if_neg hzero, hpush hroom,
        lineOf_concat_editable (Bool.eq_false_iff.mpr hmark)]

/-- Every end of a list that ends with a mark ends with it too. -/
theorem rdropWhile_of_append (pre : List (BitVec 8)) {committed : List (BitVec 8)}
    (h : (pre ++ committed).rdropWhile editable = pre ++ committed) :
    committed.rdropWhile editable = committed := by
  rw [List.rdropWhile_eq_self_iff] at h ⊢
  intro hne
  have hlast := h (by simp [hne])
  rwa [List.getLast_append_right hne] at hlast

theorem Line.read_nil {l : Line} (hc : l.committed = []) {n : ℕ} (hn : n ≠ 0) :
    l.read n = ([], l) := by
  have hle : ¬ n ≤ 0 := by omega
  simp only [Line.read, hc, List.takeWhile_nil, List.length_nil, if_neg hle, List.dropWhile_nil]

/-- A character of the record that is no mark is read before the rest. -/
theorem Line.read_cons {rest fragment : List (BitVec 8)} (hch : editable ch = true)
    (hrest : rest.dropWhile editable ≠ []) (n : ℕ) :
    Line.read ⟨ch :: rest, fragment⟩ (n + 1) =
      (ch :: (Line.read ⟨rest, fragment⟩ n).1, (Line.read ⟨rest, fragment⟩ n).2) := by
  simp only [Line.read, List.takeWhile_cons_of_pos hch, List.dropWhile_cons_of_pos hch,
    List.length_cons, Nat.add_le_add_iff_right]
  by_cases hn : n ≤ (rest.takeWhile editable).length
  · simp only [if_pos hn, List.take_succ_cons, List.drop_succ_cons]
  · simp only [if_neg hn]
    cases hdrop : rest.dropWhile editable with
    | nil => exact absurd hdrop hrest
    | cons mark later =>
      dsimp only
      split_ifs <;> rfl

/-- The records of the bytes are the records of the committed ones. -/
theorem takeRecord_line {committed : List (BitVec 8)} (hne : committed ≠ [])
    (hself : committed.rdropWhile editable = committed) (fragment : List (BitVec 8)) (n : ℕ) :
    (takeRecord n (committed ++ fragment)).1 = (Line.read ⟨committed, fragment⟩ n).1 ∧
      (takeRecord n (committed ++ fragment)).2.2 =
        (Line.read ⟨committed, fragment⟩ n).2.committed ++ fragment := by
  induction n generalizing committed with
  | zero => simp [takeRecord, Line.read]
  | succ n ih =>
    obtain ⟨ch, rest, rfl⟩ := List.exists_cons_of_ne_nil hne
    by_cases hch : editable ch = true
    · have hselfrest : rest.rdropWhile editable = rest := rdropWhile_of_append [ch] hself
      have hnerest : rest ≠ [] := by
        rintro rfl
        rw [List.rdropWhile_singleton, if_pos hch] at hself
        cases hself
      have hdrop : rest.dropWhile editable ≠ [] := by
        intro hnil
        rw [List.dropWhile_eq_nil_iff] at hnil
        exact hnerest (hselfrest.symm.trans (List.rdropWhile_eq_nil_iff.mpr hnil))
      obtain ⟨heof, hlf⟩ := ne_of_editable hch
      obtain ⟨hbytes, hlater⟩ := ih hnerest hselfrest
      rw [Line.read_cons hch hdrop, List.cons_append, takeRecord, if_neg heof, if_neg hlf]
      exact ⟨congrArg (ch :: ·) hbytes, hlater⟩
    · simp only [Line.read, List.takeWhile_cons_of_neg hch, List.dropWhile_cons_of_neg hch,
        List.length_nil, List.cons_append, takeRecord]
      by_cases heof : ch = ttyCcVeof
      · rw [if_pos heof, if_pos heof]
        exact ⟨rfl, rfl⟩
      · have hlf : ch = asciiLf := by
          simp only [editable, isMark, heof, or_false] at hch
          simpa using hch
        rw [if_neg heof, if_neg heof, if_pos hlf]
        exact ⟨rfl, rfl⟩

/-- A record without bytes is an end-of-file mark. -/
theorem takeRecord_eq_nil {n : ℕ} (hne : xs ≠ []) (h : (takeRecord (n + 1) xs).1 = []) :
    (takeRecord (n + 1) xs).2.1 = true := by
  obtain ⟨ch, rest, rfl⟩ := List.exists_cons_of_ne_nil hne
  rw [takeRecord] at h ⊢
  split_ifs at h ⊢
  rfl

/-- What is left of the committed bytes ends with a mark, and the fragment is as it
was. -/
theorem Line.read_rest (l : Line) (n : ℕ) :
    (∃ pre, l.committed = pre ++ (l.read n).2.committed) ∧ (l.read n).2.fragment = l.fragment := by
  unfold Line.read
  dsimp only
  split_ifs
  · exact ⟨⟨l.committed.take n, (List.take_append_drop n l.committed).symm⟩, rfl⟩
  · have hsplit := List.takeWhile_append_dropWhile (p := editable) (l := l.committed)
    split
    · exact ⟨⟨[], rfl⟩, rfl⟩
    · next mark rest hdrop =>
      rw [hdrop, List.append_cons] at hsplit
      exact ⟨⟨_, hsplit.symm⟩, rfl⟩

/-- Reading moves bytes from the committed ones to the reader, end-of-file marks
apart. -/
theorem Line.read_conserves (l : Line) (n : ℕ) :
    l.committed.filter (· ≠ ttyCcVeof) =
      (l.read n).1 ++ (l.read n).2.committed.filter (· ≠ ttyCcVeof) := by
  have hmem (b : BitVec 8) (hb : b ∈ l.committed.takeWhile editable) : editable b = true :=
    List.mem_takeWhile_imp hb
  have hsplit := List.takeWhile_append_dropWhile (p := editable) (l := l.committed)
  unfold Line.read
  dsimp only
  split_ifs with hn
  · have htake : l.committed.take n = (l.committed.takeWhile editable).take n :=
      calc l.committed.take n
          = (l.committed.takeWhile editable ++ l.committed.dropWhile editable).take n := by
            rw [hsplit]
        _ = _ := List.take_append_of_le_length hn
    calc l.committed.filter (· ≠ ttyCcVeof)
        = (l.committed.take n ++ l.committed.drop n).filter (· ≠ ttyCcVeof) := by
          rw [List.take_append_drop]
      _ = _ := by
          rw [List.filter_append, htake,
            filter_of_editable fun b hb => hmem b (List.mem_of_mem_take hb)]
  · split
    · rfl
    · next mark rest hdrop =>
      rw [hdrop] at hsplit
      calc l.committed.filter (· ≠ ttyCcVeof)
          = (l.committed.takeWhile editable ++ mark :: rest).filter (· ≠ ttyCcVeof) := by
            rw [hsplit]
        _ = _ := by
            rw [List.filter_append, filter_of_editable hmem, List.filter_cons]
            by_cases heof : mark = ttyCcVeof
            · rw [if_pos heof, if_neg (by simpa using heof)]
            · rw [if_neg heof, if_pos (by simpa using heof), List.append_assoc]
              rfl

end Lists

/-! ## The refinement -/

inductive LineNote
  | fed (ch : BitVec 8) (isig : Bool)
  | got (len : BitVec 32) (nonblock : Bool) (rc : ℤ) (bytes : List (BitVec 8))
  deriving DecidableEq, Repr

/-- The characters fed, and what the reads return. -/
def lineNotes (t : Tty) : ConsoleCall → List LineNote
  | .feed ch => [.fed ch (decide (t.console.lflag &&& ttyLflagIsig ≠ 0))]
  | .read len nonblock =>
    [.got len nonblock (consoleRead len nonblock t).1 (consoleRead len nonblock t).2.1]
  | .setLflag _ | .other => []

/-- A read returns the next record, or nothing while no record is committed. -/
def lineAllows : Line → LineNote → Prop
  | _, .fed _ _ => True
  | l, .got len nonblock rc bytes =>
    bytes = (l.read len.toNat).1 ∧
      rc = if l.committed = [] then if nonblock then 0 else consoleIoBlocked else bytes.length

@[simp] def lineApply : Line → LineNote → Line
  | l, .fed ch isig => l.feed isig ch
  | l, .got len _ _ _ => (l.read len.toNat).2

/-- The bytes committed by the characters of a history. -/
def committedBytes : Line → List LineNote → List (BitVec 8)
  | _, [] => []
  | l, .fed ch isig :: log =>
    l.commits isig (if ch = asciiCr then asciiLf else ch) ++ committedBytes (l.feed isig ch) log
  | l, .got len _ _ _ :: log => committedBytes (l.read len.toNat).2 log

def deliveredBytes (log : List LineNote) : List (BitVec 8) :=
  log.flatMap fun
    | .got _ _ _ bytes => bytes
    | .fed _ _ => []

/-- In a legal history every committed byte is delivered once, in order, or is still
committed, and no other byte is delivered. -/
theorem legal_committed_delivered {l : Line} {log : List LineNote}
    (h : Legal lineAllows lineApply l log) :
    (l.committed ++ committedBytes l log).filter (· ≠ ttyCcVeof) =
      deliveredBytes log ++ (log.foldl lineApply l).committed.filter (· ≠ ttyCcVeof) := by
  induction log generalizing l with
  | nil => simp [committedBytes, deliveredBytes]
  | cons x log ih =>
    obtain ⟨hx, hrest⟩ := h
    have hih := ih hrest
    cases x with
    | fed ch isig =>
      simp only [lineApply, Line.feed, List.append_assoc] at hih
      simpa only [committedBytes, Line.feed, deliveredBytes, List.flatMap_cons, List.nil_append,
        List.foldl_cons, lineApply] using hih
    | got len nonblock rc bytes =>
      obtain ⟨rfl, -⟩ := hx
      simp only [lineApply, List.filter_append] at hih
      simp only [committedBytes, deliveredBytes, List.flatMap_cons, List.foldl_cons, lineApply,
        List.filter_append, List.append_assoc]
      rw [l.read_conserves len.toNat, List.append_assoc, hih]
      rfl

/-- Canonical mode stays on, the ring has room for each character, and reads ask for at
least one byte. -/
def LineMode (t : Tty) : ConsoleCall → Prop
  | .feed _ => t.console.contents.length < 255
  | .read len _ => len ≠ 0
  | .setLflag lflag => lflag &&& ttyLflagIcanon ≠ 0
  | .other => True

/-- Both counters are zero exactly when nothing is committed. -/
theorem ConsoleView.Counted.none_iff {v : ConsoleView} (h : v.Counted) :
    (v.lines = 0 ∧ v.eofs = 0) ↔ (lineOf v.contents).committed = [] := by
  have hzero {x : BitVec 32} {m : BitVec 8} (hx : x.toNat = v.contents.count m) :
      x = 0 ↔ m ∉ v.contents := by
    rw [← List.count_eq_zero, ← hx, ← BitVec.toNat_inj]
    rfl
  rw [hzero h.lines, hzero h.eofs, lineOf, List.rdropWhile_eq_nil_iff]
  constructor
  · rintro ⟨hlf, heof⟩ b hb
    rw [editable, Bool.not_eq_true', isMark, decide_eq_false_iff_not]
    rintro (rfl | rfl)
    · exact hlf hb
    · exact heof hb
  · intro hall
    exact ⟨fun hlf => absurd (hall _ hlf) (by decide), fun heof => absurd (hall _ heof) (by decide)⟩

/-- A record taken from the bytes is a read of the line that they stand for. -/
theorem lineOf_takeRecord {xs : List (BitVec 8)} (hc : (lineOf xs).committed ≠ []) (n : ℕ) :
    (takeRecord n xs).1 = ((lineOf xs).read n).1 ∧
      lineOf (takeRecord n xs).2.2 = ((lineOf xs).read n).2 := by
  have hself : (lineOf xs).committed.rdropWhile editable = (lineOf xs).committed :=
    List.rdropWhile_idempotent editable xs
  obtain ⟨hbytes, hrest⟩ := takeRecord_line hc hself (lineOf xs).fragment n
  obtain ⟨⟨pre, hpre⟩, hfragment⟩ := (lineOf xs).read_rest n
  rw [lineOf_append] at hbytes hrest
  refine ⟨hbytes, ?_⟩
  rw [hpre] at hself
  have hline : lineOf (((lineOf xs).read n).2.committed ++ (lineOf xs).fragment) = ⟨_, _⟩ :=
    lineOf_append_of (rdropWhile_of_append pre hself) fun b hb => List.mem_rtakeWhile_imp hb
  rw [hrest]
  exact hline.trans (by rw [← hfragment])

/-- What a canonical read returns, and what it leaves. -/
theorem read_line (hcan : t.console.canonical = true) (hcounted : t.console.view.Counted)
    {len : BitVec 32} (hlen : len ≠ 0) (nonblock : Bool) :
    lineAllows (lineOf t.console.contents) (.got len nonblock (consoleRead len nonblock t).1
        (consoleRead len nonblock t).2.1) ∧
      lineOf (consoleRead len nonblock t).2.2.console.contents =
        ((lineOf t.console.contents).read len.toNat).2 := by
  have hn : len.toNat ≠ 0 := BitVec.toNat_ne_iff_ne.mpr hlen
  have hnone := hcounted.none_iff
  by_cases hc : (lineOf t.console.contents).committed = []
  · rw [consoleRead_of_none hlen ⟨hcan, hnone.mpr hc⟩, readBlocked_console, readBlocked_bytes]
    simp only [lineAllows, if_pos hc, Line.read_nil hc hn, true_and, and_true]
    cases nonblock <;> rfl
  · have hsome : ¬ (t.console.canonical = true ∧ t.console.lines = 0 ∧ t.console.eofs = 0) :=
      fun h => hc (hnone.mp h.2)
    obtain ⟨c', hrun, hcontents, -⟩ := readLoop_canonical (n := len.toNat) hcounted
    obtain ⟨hbytes, hrest⟩ := lineOf_takeRecord hc len.toNat
    rw [consoleRead_of_some hlen hsome (hcan ▸ hrun)]
    simp only [lineAllows, if_neg hc]
    by_cases hlength : (takeRecord len.toNat t.console.contents).1.length ≠ 0
    · rw [if_pos hlength]
      exact ⟨⟨hbytes, rfl⟩, by rw [hcontents, hrest]⟩
    · have hnil := List.length_eq_zero_iff.mp (not_not.mp hlength)
      have hxs : t.console.contents ≠ [] := by
        intro hempty
        rw [hempty] at hc
        exact hc rfl
      obtain ⟨k, hk⟩ := Nat.exists_eq_succ_of_ne_zero hn
      have heof : (takeRecord len.toNat t.console.contents).2.1 = true := by
        rw [hk] at hnil ⊢
        exact takeRecord_eq_nil hxs hnil
      rw [if_neg hlength, if_pos ⟨hcan, heof⟩]
      exact ⟨⟨hnil.symm.trans hbytes, rfl⟩, by rw [hcontents, hrest]⟩

/-- As long as the flag stays set, canonical mode stays on and the counters stay right. -/
theorem canonical_step {u : Tty} {call : ConsoleCall} (hcan : t.console.canonical = true)
    (hcounted : t.console.view.Counted)
    (hmode : ∀ lflag, call = .setLflag lflag → lflag &&& ttyLflagIcanon ≠ 0)
    (hs : consoleCalls.step t call u) :
    u.console.canonical = true ∧ u.console.view.Counted := by
  have hno : NoRawEof t call := by
    rintro len nonblock rfl hraw
    rw [hcan] at hraw
    cases hraw
  refine ⟨?_, (counted_step_iff hcounted call hs).mpr hno⟩
  cases call with
  | feed ch =>
    obtain rfl : u = consoleRxFeed ch t := hs
    have hflag : (consoleRxFeed ch t).console.lflag = t.console.lflag :=
      (congrArg ConsoleView.lflag (feed_view ch t)).trans (t.console.view.feed_lflag ch)
    rw [Console.canonical, hflag]
    exact hcan
  | read len nonblock =>
    obtain rfl : u = (consoleRead len nonblock t).2.2 := hs
    have hflag : (consoleRead len nonblock t).2.2.console.lflag = t.console.lflag := by
      rw [read_console]
      split_ifs
      · rfl
      · exact readLoop_lflag _ _ _
    rw [Console.canonical, hflag]
    exact hcan
  | setLflag lflag =>
    obtain rfl : u = consoleTtySetLflag lflag t := hs
    have hmask : lflag &&& ttyLflagSupported &&& ttyLflagIcanon = lflag &&& ttyLflagIcanon := by
      rw [BitVec.and_assoc]
      rfl
    change decide (lflag &&& ttyLflagSupported &&& ttyLflagIcanon ≠ 0) = true
    rw [hmask]
    exact decide_eq_true (hmode lflag rfl)
  | other =>
    have hsame : u.console = t.console := hs
    rw [hsame]
    exact hcan

/-- The console in line mode, and the line that it stands for. -/
structure LineRepresents (t : Tty) (l : Line) : Prop where
  canonical : t.console.canonical = true
  counted : t.console.view.Counted
  line : lineOf t.console.contents = l

theorem lineRepresents_step {u : Tty} {l : Line} (hR : LineRepresents t l) (call : ConsoleCall)
    (hmode : LineMode t call) (hs : consoleCalls.step t call u) :
    Legal lineAllows lineApply l (lineNotes t call) ∧
      LineRepresents u ((lineNotes t call).foldl lineApply l) := by
  obtain ⟨hcan, hcounted⟩ := canonical_step hR.canonical hR.counted
    (by rintro lflag rfl; exact hmode) hs
  obtain rfl := hR.line
  cases call with
  | feed ch =>
    obtain rfl : u = consoleRxFeed ch t := hs
    have hcontents : (consoleRxFeed ch t).console.contents = (t.console.view.feed ch).contents :=
      congrArg ConsoleView.contents (feed_view ch t)
    refine ⟨⟨trivial, trivial⟩, hcan, hcounted, ?_⟩
    rw [hcontents]
    have hcan' : t.console.view.canonical = true := hR.canonical
    exact lineOf_feed hcan' hmode ch
  | read len nonblock =>
    obtain rfl : u = (consoleRead len nonblock t).2.2 := hs
    obtain ⟨hallows, hline⟩ := read_line hR.canonical hR.counted hmode nonblock
    exact ⟨⟨hallows, trivial⟩, hcan, hcounted, hline⟩
  | setLflag lflag =>
    obtain rfl : u = consoleTtySetLflag lflag t := hs
    exact ⟨trivial, hcan, hcounted, rfl⟩
  | other =>
    have hsame : u.console = t.console := hs
    refine ⟨trivial, hcan, hcounted, ?_⟩
    rw [hsame]
    rfl

/-- While canonical mode stays on and the ring has room, every history of the console is
one of a line discipline. What has been committed, end-of-file marks apart, is what has
been delivered and what readers may still have, in this order. -/
theorem console_refines_line_discipline {log : List LineNote}
    (h : Reachable ((consoleCalls.restrict LineMode).logged lineNotes) (t, log)) :
    Legal lineAllows lineApply ⟨[], []⟩ log ∧
      log.foldl lineApply ⟨[], []⟩ = lineOf t.console.contents ∧
      (committedBytes ⟨[], []⟩ log).filter (· ≠ ttyCcVeof) =
        deliveredBytes log ++ (lineOf t.console.contents).committed.filter (· ≠ ttyCcVeof) := by
  have hinit (t : Tty) (ht : (consoleCalls.restrict LineMode).init t) :
      LineRepresents t ⟨[], []⟩ := by
    obtain ⟨t₀, rfl⟩ := ht
    have hcan : (consoleInit t₀).console.canonical = true := by
      change decide ((7 : BitVec 32) &&& ttyLflagIcanon ≠ 0) = true
      decide
    exact ⟨hcan, counted_init t₀, by rw [contents_init]; rfl⟩
  have hstep (t : Tty) (call : ConsoleCall) (u : Tty) (l : Line) (hR : LineRepresents t l)
      (hs : (consoleCalls.restrict LineMode).step t call u) :
      Legal lineAllows lineApply l (lineNotes t call) ∧
        LineRepresents u ((lineNotes t call).foldl lineApply l) :=
    lineRepresents_step hR call hs.1 hs.2
  obtain ⟨hlegal, hR⟩ := h.refines hinit hstep
  refine ⟨hlegal, hR.line.symm, ?_⟩
  have hstream := legal_committed_delivered hlegal
  rwa [← hR.line] at hstream

theorem console_refines_line_discipline_typed : ∃ t rc bytes,
    Reachable ((consoleCalls.restrict LineMode).logged lineNotes)
      (t, [.fed 0x61 true, .fed asciiCr true, .got 10 true rc bytes]) ∧
    bytes = [0x61, asciiLf] ∧ rc = 2 := by
  let first := consoleRxFeed 0x61 (consoleInit .zero)
  let second := consoleRxFeed asciiCr first
  have hfirst : first.console.view = ⟨[0x61], 0, 0, 7⟩ := by
    rw [feed_view, view_init]
    rfl
  have hinit : (consoleInit .zero).console.contents.length < 255 := by
    rw [contents_init]
    decide
  have hroom : first.console.contents.length < 255 := by
    rw [show first.console.contents = [0x61] from congrArg ConsoleView.contents hfirst]
    decide
  have hflag : first.console.lflag = 7 := congrArg ConsoleView.lflag hfirst
  have hstart : Reachable ((consoleCalls.restrict LineMode).logged lineNotes)
      (consoleInit .zero, []) := .of_init ⟨⟨.zero, rfl⟩, rfl⟩
  have hfed : Reachable ((consoleCalls.restrict LineMode).logged lineNotes)
      (first, [.fed 0x61 true]) := hstart.step (l := .feed 0x61) ⟨⟨hinit, rfl⟩, rfl⟩
  have htyped : Reachable ((consoleCalls.restrict LineMode).logged lineNotes)
      (second, [.fed 0x61 true, .fed asciiCr true]) := by
    refine hfed.step (l := .feed asciiCr) ⟨⟨hroom, rfl⟩, ?_⟩
    simp only [lineNotes, hflag]
    rfl
  have hread : Reachable ((consoleCalls.restrict LineMode).logged lineNotes)
      ((consoleRead 10 true second).2.2, [.fed 0x61 true, .fed asciiCr true,
        .got 10 true (consoleRead 10 true second).1 (consoleRead 10 true second).2.1]) :=
    htyped.step (l := .read 10 true) ⟨⟨show (10 : BitVec 32) ≠ 0 by decide, rfl⟩, rfl⟩
  obtain ⟨⟨-, -, ⟨hbytes, hrc⟩, -⟩, -⟩ := console_refines_line_discipline hread
  refine ⟨_, _, _, hread, hbytes.trans (by decide), hrc.trans ?_⟩
  rw [hbytes]
  decide

end LampVm
