import LampVm.Readiness

/-!
# The chunks of a read

`SYS_READ` fills the caller's buffer through 64 bytes on the kernel's stack, with one
`console_read` for each chunk, and goes on after every chunk that was full. In canonical mode a
full chunk may have ended with its line, and the next one then takes from what follows.
-/
namespace LampVm

open ByteOrder

/-! ## One read of the ring -/

/-- How the loop ends with room for `n` bytes, and how it would have gone on with more room:
the room was used up, a line ended, or an end-of-file mark came or the ring was empty. -/
inductive ReadEnd (canonical : Bool) (c : Console) (n : ℕ) : Prop
  | full (xs : List (BitVec 8)) (c' : Console) (length : xs.length = n)
      (contents : c.contents = xs ++ c'.contents)
      (counters : canonical = true → c'.lines = c.lines ∧ c'.eofs = c.eofs)
      (unmarked : canonical = true → c.lines ≠ 0 → ∀ ch ∈ xs, editable ch = true)
      (run : ∀ m, consoleReadLoop canonical (n + m) c =
        (xs ++ (consoleReadLoop canonical m c').1, (consoleReadLoop canonical m c').2))
  | line (xs : List (BitVec 8)) (c' : Console) (length : xs.length < n)
      (contents : c.contents = xs ++ asciiLf :: c'.contents)
      (counters : canonical = true ∧ c.lines ≠ 0 ∧ c'.lines = c.lines - 1 ∧ c'.eofs = c.eofs)
      (unmarked : ∀ ch ∈ xs, editable ch = true)
      (run : ∀ m, consoleReadLoop canonical (n + m) c = (xs ++ [asciiLf], false, c'))
  | short (xs rest : List (BitVec 8)) (sawEof : Bool) (c' : Console) (length : xs.length < n)
      (contents : c.contents = xs ++ rest) (left : c'.contents = rest.tail)
      (head : ∀ ch ∈ rest.head?, ch = ttyCcVeof)
      (unmarked : canonical = true → c.lines ≠ 0 → ∀ ch ∈ xs, editable ch = true)
      (run : ∀ m, consoleReadLoop canonical (n + m) c = (xs, sawEof, c'))

section Loop

variable {canonical : Bool} {c : Console} {n : ℕ}

theorem editable_of_ne {ch : BitVec 8} (hlf : ch ≠ asciiLf) (heof : ch ≠ ttyCcVeof) :
    editable ch = true := by
  simpa [editable, isMark] using And.intro hlf heof

theorem forall_cons_editable {ch : BitVec 8} {xs : List (BitVec 8)} (hch : editable ch = true)
    (h : ∀ ch ∈ xs, editable ch = true) : ∀ b ∈ ch :: xs, editable b = true := by
  intro b hb
  rcases List.mem_cons.mp hb with rfl | hb
  · exact hch
  · exact h b hb

/-- A byte that does not stop the loop goes in front. -/
theorem ReadEnd.cons {ch : BitVec 8} {d : Console} (h : ReadEnd canonical d n)
    (hcontents : c.contents = ch :: d.contents)
    (hgoes : canonical = true →
      d.lines = c.lines ∧ d.eofs = c.eofs ∧ (c.lines ≠ 0 → editable ch = true))
    (hrun : ∀ m, consoleReadLoop canonical (m + 1) c =
      (ch :: (consoleReadLoop canonical m d).1, (consoleReadLoop canonical m d).2)) :
    ReadEnd canonical c (n + 1) := by
  have hadd (m : ℕ) : n + 1 + m = n + m + 1 := by omega
  cases h with
  | full xs c' length contents counters unmarked run =>
    refine .full (ch :: xs) c' (congrArg (· + 1) length) ?_ (fun hcan => ?_)
      (fun hcan hlines => ?_) fun m => ?_
    · rw [hcontents, contents, List.cons_append]
    · obtain ⟨hlines, heofs, -⟩ := hgoes hcan
      exact ⟨(counters hcan).1.trans hlines, (counters hcan).2.trans heofs⟩
    · obtain ⟨hsame, -, hch⟩ := hgoes hcan
      exact forall_cons_editable (hch hlines) (unmarked hcan (hsame ▸ hlines))
    · rw [hadd, hrun, run, List.cons_append]
  | line xs c' length contents counters unmarked run =>
    obtain ⟨hcan, hlines, hnext, heofs'⟩ := counters
    obtain ⟨hsame, heofs, hch⟩ := hgoes hcan
    rw [hsame] at hlines hnext
    refine .line (ch :: xs) c' (Nat.succ_lt_succ length) ?_
      ⟨hcan, hlines, hnext, heofs'.trans heofs⟩ (forall_cons_editable (hch hlines) unmarked)
      fun m => ?_
    · rw [hcontents, contents, List.cons_append]
    · rw [hadd, hrun, run, List.cons_append]
  | short xs rest sawEof c' length contents left head unmarked run =>
    refine .short (ch :: xs) rest sawEof c' (Nat.succ_lt_succ length) ?_ left head
      (fun hcan hlines => ?_) fun m => ?_
    · rw [hcontents, contents, List.cons_append]
    · obtain ⟨hsame, -, hch⟩ := hgoes hcan
      exact forall_cons_editable (hch hlines) (unmarked hcan (hsame ▸ hlines))
    · rw [hadd, hrun, run]

theorem readLoop_empty (h : c.contents = []) (n : ℕ) :
    consoleReadLoop canonical n c = ([], false, c) := by
  cases n with
  | zero => rfl
  | succ n => rw [consoleReadLoop, if_pos (Console.contents_eq_nil_iff.mp h)]

theorem readEnd (canonical : Bool) (c : Console) (n : ℕ) : ReadEnd canonical c n := by
  induction n generalizing c with
  | zero =>
    refine .full [] c rfl rfl (fun _ => ⟨rfl, rfl⟩) (fun _ _ => List.forall_mem_nil _)
      fun m => ?_
    rw [zero_add]
    rfl
  | succ n ih =>
    by_cases hempty : c.tail = c.head
    · have hnil := Console.contents_eq_nil_iff.mpr hempty
      exact .short [] [] false c (Nat.succ_pos n) hnil hnil
        (fun ch hch => absurd hch (Option.not_mem_none ch)) (fun _ _ => List.forall_mem_nil _)
        fun m => readLoop_empty hnil _
    · have hcons := Console.contents_eq_cons hempty
      have hstep (m : ℕ) := consoleReadLoop.eq_2 canonical c m
      simp only [if_neg hempty] at hstep
      have hadd (m : ℕ) : n + 1 + m = n + m + 1 := by omega
      by_cases heof : canonical = true ∧ c.buf c.tail = ttyCcVeof
      · refine .short [] c.contents true { c with
          eofs := if c.eofs ≠ 0 then c.eofs - 1 else c.eofs, tail := c.tail + 1 }
          (Nat.succ_pos n) rfl ?_ ?_ (fun _ _ => List.forall_mem_nil _) fun m => ?_
        · rw [hcons]
          rfl
        · rw [hcons, heof.2]
          intro ch hch
          exact (Option.some.inj hch).symm
        · rw [hadd, hstep, if_pos heof]
      · by_cases hlf : c.buf c.tail = asciiLf ∧ c.lines ≠ 0
        · cases hcan : canonical with
          | true =>
            refine .line [] { c with lines := c.lines - 1, tail := c.tail + 1 } (Nat.succ_pos n)
              ?_ ⟨rfl, hlf.2, rfl, rfl⟩ (List.forall_mem_nil _) fun m => ?_
            · rw [hcons, hlf.1]
              rfl
            · rw [← hcan, hadd, hstep, if_neg heof, if_pos hlf, if_pos hcan, hlf.1]
              rfl
          | false =>
            refine (hcan ▸ ih { c with lines := c.lines - 1, tail := c.tail + 1 }).cons hcons
              (fun h => absurd h Bool.false_ne_true) fun m => ?_
            rw [← hcan, hstep, if_neg heof, if_pos hlf, hcan]
            rfl
        · refine (ih c.skip).cons hcons (fun hcan => ⟨rfl, rfl, fun hlines => ?_⟩) fun m => ?_
          · exact editable_of_ne (fun h => hlf ⟨h, hlines⟩) fun h => heof ⟨hcan, h⟩
          · rw [hstep, if_neg heof, if_neg hlf]
            rfl

/-- A read of a ring that holds something takes something. -/
theorem readLoop_takes (hn : n ≠ 0) (h : c.contents ≠ []) :
    (consoleReadLoop canonical n c).2.2.contents.length < c.contents.length := by
  cases readEnd canonical c n with
  | full xs c' length contents _ _ run =>
    have hrun : consoleReadLoop canonical n c = _ := run 0
    rw [hrun, contents, List.length_append]
    change c'.contents.length < _
    omega
  | line xs c' _ contents _ _ run =>
    have hrun : consoleReadLoop canonical n c = _ := run 0
    rw [hrun, contents, List.length_append, List.length_cons]
    change c'.contents.length < _
    omega
  | short xs rest sawEof c' _ contents left _ _ run =>
    have hrun : consoleReadLoop canonical n c = _ := run 0
    have hpos := List.length_pos_of_ne_nil h
    rw [contents, List.length_append] at hpos
    rw [hrun, contents, left, List.length_append, List.length_tail]
    omega

end Loop

/-! ## Records that fill their chunks -/

/-- In canonical mode the first record is a line that fills its chunks, and neither the buffer
nor what can be read ends with it. -/
def Console.SplitLine (c : Console) (len : ℕ) : Prop :=
  c.canonical = true ∧ c.lines ≠ 0 ∧ (c.lines ≠ 1 ∨ c.eofs ≠ 0) ∧
  ∃ line rest, c.contents = line ++ asciiLf :: rest ∧ (∀ ch ∈ line, editable ch = true) ∧
    64 ∣ line.length + 1 ∧ line.length + 1 < len ∧ rest ≠ []

section Split

variable {c d : Console} {xs rest : List (BitVec 8)} {len : ℕ}

/-- A line that bytes without a mark begin goes on behind them. -/
theorem line_of_unmarked {ys line : List (BitVec 8)} (hxs : ∀ ch ∈ xs, editable ch = true)
    (h : xs ++ ys = line ++ asciiLf :: rest) : ∃ line', line = xs ++ line' ∧
      ys = line' ++ asciiLf :: rest := by
  rcases List.append_eq_append_iff.mp h with ⟨line', hline, hys⟩ | ⟨zs, hsplit, hzs⟩
  · exact ⟨line', hline, hys⟩
  · cases zs with
    | nil =>
      rw [List.append_nil] at hsplit
      exact ⟨[], by rw [hsplit, List.append_nil], hzs.symm⟩
    | cons ch zs =>
      obtain ⟨rfl, -⟩ := List.cons.inj hzs
      have hlf := hxs asciiLf (hsplit ▸ List.mem_append_right _ List.mem_cons_self)
      exact absurd hlf (by decide)

/-- A line ends with its first mark. -/
theorem line_unique {line line' rest' : List (BitVec 8)} (h : ∀ ch ∈ line, editable ch = true)
    (h' : ∀ ch ∈ line', editable ch = true)
    (heq : line ++ asciiLf :: rest = line' ++ asciiLf :: rest') : line = line' ∧ rest = rest' := by
  obtain ⟨zs, rfl, hzs⟩ := line_of_unmarked h heq
  cases zs with
  | nil =>
    rw [List.append_nil]
    exact ⟨rfl, (List.cons.inj hzs).2⟩
  | cons ch zs =>
    obtain ⟨rfl, -⟩ := List.cons.inj hzs
    exact absurd (h' asciiLf (List.mem_append_right _ List.mem_cons_self)) (by decide)

theorem not_splitLine_zero : ¬ c.SplitLine 0 := by
  rintro ⟨-, -, -, line, rest, -, -, -, hlt, -⟩
  exact Nat.not_lt_zero _ hlt

/-- A chunk without a mark is taken away, and the rest of the buffer decides. -/
theorem splitLine_of_full (hlength : xs.length = min 64 len)
    (hcontents : c.contents = xs ++ d.contents) (hlflag : d.lflag = c.lflag)
    (hcounters : c.canonical = true → d.lines = c.lines ∧ d.eofs = c.eofs)
    (hxs : c.canonical = true → c.lines ≠ 0 → ∀ ch ∈ xs, editable ch = true) :
    c.SplitLine len ↔ d.SplitLine (len - min 64 len) := by
  have hmode : d.canonical = c.canonical := by rw [Console.canonical, Console.canonical, hlflag]
  constructor
  · rintro ⟨hcan, hlines, hmore, line, rest, hline, hunmarked, hdvd, hlt, hrest⟩
    obtain ⟨hlines', heofs'⟩ := hcounters hcan
    rw [hcontents] at hline
    obtain ⟨line', rfl, hline'⟩ := line_of_unmarked (hxs hcan hlines) hline
    rw [List.length_append] at hdvd hlt
    refine ⟨hmode.trans hcan, by rwa [hlines'], by rwa [hlines', heofs'], line', rest, hline',
      fun ch hch => hunmarked ch (List.mem_append_right _ hch), ?_, ?_, hrest⟩
    · omega
    · omega
  · rintro ⟨hcan, hlines, hmore, line, rest, hline, hunmarked, hdvd, hlt, hrest⟩
    rw [hmode] at hcan
    obtain ⟨hlines', heofs'⟩ := hcounters hcan
    rw [hlines'] at hlines hmore
    rw [heofs'] at hmore
    refine ⟨hcan, hlines, hmore, xs ++ line, rest, ?_, fun ch hch => ?_, ?_, ?_, hrest⟩
    · rw [hcontents, hline, List.append_assoc]
    · rcases List.mem_append.mp hch with hch | hch
      · exact hxs hcan hlines ch hch
      · exact hunmarked ch hch
    · rw [List.length_append]
      omega
    · rw [List.length_append]
      omega

/-- Which line it is. -/
theorem splitLine_of_line (hcan : c.canonical = true) (hlines : c.lines ≠ 0)
    (hcontents : c.contents = xs ++ asciiLf :: rest) (hxs : ∀ ch ∈ xs, editable ch = true) :
    c.SplitLine len ↔ (c.lines ≠ 1 ∨ c.eofs ≠ 0) ∧ 64 ∣ xs.length + 1 ∧ xs.length + 1 < len ∧
      rest ≠ [] := by
  constructor
  · rintro ⟨-, -, hmore, line, rest', hline, hunmarked, hdvd, hlt, hrest⟩
    obtain ⟨rfl, rfl⟩ := line_unique hxs hunmarked (hcontents.symm.trans hline)
    exact ⟨hmore, hdvd, hlt, hrest⟩
  · rintro ⟨hmore, hdvd, hlt, hrest⟩
    exact ⟨hcan, hlines, hmore, xs, rest, hcontents, hxs, hdvd, hlt, hrest⟩

/-- A record that is no line is not split. -/
theorem not_splitLine_of_short (hcontents : c.contents = xs ++ rest)
    (hhead : ∀ ch ∈ rest.head?, ch = ttyCcVeof)
    (hxs : c.canonical = true → c.lines ≠ 0 → ∀ ch ∈ xs, editable ch = true) :
    ¬ c.SplitLine len := by
  rintro ⟨hcan, hlines, -, line, rest', hline, hunmarked, -⟩
  obtain ⟨line', rfl, hrest⟩ := line_of_unmarked (hxs hcan hlines) (hcontents.symm.trans hline)
  cases line' with
  | nil =>
    rw [hrest] at hhead
    exact absurd (hhead asciiLf rfl) (by decide)
  | cons ch line' =>
    rw [hrest] at hhead
    have heof : ch = ttyCcVeof := hhead ch rfl
    have hch := hunmarked ch (List.mem_append_right _ List.mem_cons_self)
    rw [heof] at hch
    exact absurd hch (by decide)

/-- A read that takes nothing ends, and there is no line to split. -/
theorem readLoop_of_nil {n : ℕ} (hn : n ≠ 0) (h : (consoleReadLoop c.canonical n c).1 = [])
    (m : ℕ) : consoleReadLoop c.canonical (n + m) c = consoleReadLoop c.canonical n c ∧
      ¬ c.SplitLine len := by
  cases readEnd c.canonical c n with
  | full xs c' length _ _ _ run =>
    have hrun : consoleReadLoop c.canonical n c = (xs ++ [], false, c') := run 0
    rw [hrun, List.append_nil] at h
    have hnil : xs = [] := h
    exact absurd (length ▸ List.length_eq_zero_iff.mpr hnil) hn
  | line xs c' _ _ _ _ run =>
    have hrun : consoleReadLoop c.canonical n c = (xs ++ [asciiLf], false, c') := run 0
    rw [hrun] at h
    exact absurd h (List.append_ne_nil_of_right_ne_nil _ (List.cons_ne_nil _ _))
  | short xs rest sawEof c' _ contents _ head unmarked run =>
    have hrun : consoleReadLoop c.canonical n c = (xs, sawEof, c') := run 0
    exact ⟨(run m).trans hrun.symm, not_splitLine_of_short contents head unmarked⟩

end Split

/-! ## The rounds of a call -/

/-- The rounds of a call on the console alone, once one of them may not wait: with room for
`rem` more bytes, what they take and what they leave. -/
def readRounds (canonical : Bool) : ℕ → ℕ → Console → List (BitVec 8) × Console
  | 0, _, c => ([], c)
  | n + 1, rem, c =>
    if rem = 0 ∨ canonical = true ∧ c.lines = 0 ∧ c.eofs = 0 then ([], c)
    else
      let r := consoleReadLoop canonical (min 64 rem) c
      if r.1.length < min 64 rem then (r.1, r.2.2)
      else
        let rest := readRounds canonical n (rem - min 64 rem) r.2.2
        (r.1 ++ rest.1, rest.2)

section Rounds

variable {canonical : Bool} {c : Console} {n rem : ℕ}

theorem readRounds_zero (canonical : Bool) (n : ℕ) (c : Console) :
    readRounds canonical n 0 c = ([], c) := by
  cases n with
  | zero => rfl
  | succ n => rw [readRounds, if_pos (.inl rfl)]

theorem readRounds_none (h : canonical = true ∧ c.lines = 0 ∧ c.eofs = 0) :
    readRounds canonical n rem c = ([], c) := by
  cases n with
  | zero => rfl
  | succ n => rw [readRounds, if_pos (.inr h)]

theorem readRounds_empty (h : c.contents = []) : readRounds canonical n rem c = ([], c) := by
  cases n with
  | zero => rfl
  | succ n =>
    rw [readRounds, readLoop_empty h]
    by_cases hstop : rem = 0 ∨ canonical = true ∧ c.lines = 0 ∧ c.eofs = 0
    · rw [if_pos hstop]
    · have hrem : rem ≠ 0 := fun hzero => hstop (.inl hzero)
      rw [if_neg hstop]
      exact if_pos (by simp only [List.length_nil]; omega)

theorem readRounds_length_le :
    (readRounds canonical n rem c).2.contents.length ≤ c.contents.length := by
  induction n generalizing rem c with
  | zero => exact le_rfl
  | succ n ih =>
    by_cases hempty : c.contents = []
    · rw [readRounds_empty hempty]
    · rw [readRounds]
      by_cases hstop : rem = 0 ∨ canonical = true ∧ c.lines = 0 ∧ c.eofs = 0
      · rw [if_pos hstop]
      · have hwant : min 64 rem ≠ 0 := by
          have hrem : rem ≠ 0 := fun hzero => hstop (.inl hzero)
          omega
        have htakes : (consoleReadLoop canonical (min 64 rem) c).2.2.contents.length ≤
            c.contents.length := (readLoop_takes hwant hempty).le
        rw [if_neg hstop]
        dsimp only
        split_ifs
        · exact htakes
        · exact ih.trans htakes

theorem readRounds_takes (hn : n ≠ 0) (hrem : rem ≠ 0)
    (hsome : ¬ (canonical = true ∧ c.lines = 0 ∧ c.eofs = 0)) (h : c.contents ≠ []) :
    (readRounds canonical n rem c).2.contents.length < c.contents.length := by
  obtain ⟨n, rfl⟩ := Nat.exists_eq_succ_of_ne_zero hn
  have htakes : (consoleReadLoop canonical (min 64 rem) c).2.2.contents.length <
      c.contents.length := readLoop_takes (by omega) h
  rw [readRounds, if_neg (not_or.mpr ⟨hrem, hsome⟩)]
  dsimp only
  split_ifs
  · exact htakes
  · exact readRounds_length_le.trans_lt htakes

/-- Unless a line is split the rounds take what one read takes. If one is, they take more. -/
theorem readRounds_cases (hn : rem ≤ n)
    (hsome : ¬ (c.canonical = true ∧ c.lines = 0 ∧ c.eofs = 0)) :
    (¬ c.SplitLine rem ∧ readRounds c.canonical n rem c =
      ((consoleReadLoop c.canonical rem c).1, (consoleReadLoop c.canonical rem c).2.2)) ∨
    (c.SplitLine rem ∧ (readRounds c.canonical n rem c).2.contents.length <
      (consoleReadLoop c.canonical rem c).2.2.contents.length) := by
  induction n generalizing c rem with
  | zero =>
    obtain rfl : rem = 0 := Nat.le_zero.mp hn
    exact .inl ⟨not_splitLine_zero, rfl⟩
  | succ n ih =>
    by_cases hrem : rem = 0
    · subst hrem
      exact .inl ⟨not_splitLine_zero, readRounds_zero _ _ _⟩
    · have hsum : min 64 rem + (rem - min 64 rem) = rem := by omega
      rw [readRounds, if_neg (not_or.mpr ⟨hrem, hsome⟩)]
      dsimp only
      cases readEnd c.canonical c (min 64 rem) with
      | full xs c' length contents counters unmarked run =>
        have hrun : consoleReadLoop c.canonical (min 64 rem) c = (xs ++ [], false, c') := run 0
        have hlflag : c'.lflag = c.lflag := by
          have hloop := readLoop_lflag c.canonical (min 64 rem) c
          rwa [hrun] at hloop
        have hmode : c'.canonical = c.canonical := by
          rw [Console.canonical, Console.canonical, hlflag]
        have hall := run (rem - min 64 rem)
        rw [hsum] at hall
        have hsome' : ¬ (c'.canonical = true ∧ c'.lines = 0 ∧ c'.eofs = 0) := by
          rintro ⟨hcan, hlines, heofs⟩
          rw [hmode] at hcan
          obtain ⟨hlines', heofs'⟩ := counters hcan
          exact hsome ⟨hcan, hlines' ▸ hlines, heofs' ▸ heofs⟩
        have hrest := ih (show rem - min 64 rem ≤ n by omega) hsome'
        rw [hmode] at hrest
        rw [splitLine_of_full length contents hlflag counters unmarked, hrun, hall, List.append_nil,
          if_neg (by rw [length]; exact lt_irrefl _)]
        rcases hrest with ⟨hwhole, hrest⟩ | ⟨hsplit, hmore⟩
        · exact .inl ⟨hwhole, by rw [hrest]⟩
        · exact .inr ⟨hsplit, hmore⟩
      | line xs c' length contents counters unmarked run =>
        obtain ⟨hcan, hlines, hnext, heofs⟩ := counters
        have hrun : consoleReadLoop c.canonical (min 64 rem) c = (xs ++ [asciiLf], false, c') :=
          run 0
        have hall := run (rem - min 64 rem)
        rw [hsum] at hall
        rw [splitLine_of_line hcan hlines contents unmarked, hrun, hall]
        dsimp only
        rw [List.length_append, List.length_singleton]
        by_cases hshort : xs.length + 1 < min 64 rem
        · rw [if_pos hshort]
          exact .inl ⟨fun hsplit => by omega, rfl⟩
        · rw [if_neg hshort]
          by_cases hroom : rem ≤ 64
          · rw [show rem - min 64 rem = 0 by omega, readRounds_zero, List.append_nil]
            exact .inl ⟨fun hsplit => by omega, rfl⟩
          · by_cases hnone : c'.lines = 0 ∧ c'.eofs = 0
            · rw [readRounds_none ⟨hcan, hnone⟩, List.append_nil]
              refine .inl ⟨?_, rfl⟩
              rintro ⟨hlines' | heofs', -⟩
              · have hlast : c.lines - 1 = 0 := hnext.symm.trans hnone.1
                exact hlines' (by bv_omega)
              · exact heofs' (heofs.symm.trans hnone.2)
            · by_cases hempty : c'.contents = []
              · rw [readRounds_empty hempty, List.append_nil]
                exact .inl ⟨fun hsplit => hsplit.2.2.2 hempty, rfl⟩
              · refine .inr ⟨⟨?_, by omega, by omega, hempty⟩,
                  readRounds_takes (by omega) (by omega) (fun h => hnone h.2) hempty⟩
                by_contra hlast
                obtain ⟨hone, hzero⟩ := not_or.mp hlast
                refine hnone ⟨?_, heofs.trans (not_not.mp hzero)⟩
                rw [hnext, not_not.mp hone]
                rfl
      | short xs rest sawEof c' length contents _ head unmarked run =>
        have hrun : consoleReadLoop c.canonical (min 64 rem) c = (xs, sawEof, c') := run 0
        have hall := run (rem - min 64 rem)
        rw [hsum] at hall
        rw [hrun, hall, if_pos length]
        exact .inl ⟨not_splitLine_of_short contents head unmarked, rfl⟩

end Rounds

/-! ## The call -/

section Call

variable {bufAddr len copied fd flags : BitVec 32} {nonblock : Bool} {n : ℕ} {s : IoState}

theorem storeBytes_nil (memory : Bytes) (a : ℕ) : storeBytes memory a [] = memory := by
  funext i
  exact if_neg (by simp only [List.length_nil]; omega)

theorem storeBytes_append (memory : Bytes) (a : ℕ) (xs ys : List (BitVec 8)) :
    storeBytes (storeBytes memory a xs) (a + xs.length) ys = storeBytes memory a (xs ++ ys) := by
  funext i
  simp only [storeBytes, List.length_append]
  by_cases hys : a + xs.length ≤ i ∧ i < a + xs.length + ys.length
  · rw [if_pos hys, if_pos (by omega), List.getD_append_right _ _ _ _ (by omega)]
    congr 1
    omega
  · rw [if_neg hys]
    by_cases hxs : a ≤ i ∧ i < a + xs.length
    · rw [if_pos hxs, if_pos (by omega), List.getD_append _ _ _ _ (by omega)]
    · rw [if_neg hxs, if_neg (by omega)]

/-- Bytes within the caller's buffer are stored. -/
theorem abiUserWriteBytes_within (hbuf : abiPtrRangeOk bufAddr len = true) {xs : List (BitVec 8)}
    (hne : xs ≠ []) (hle : copied.toNat + xs.length ≤ len.toNat) (memory : Bytes) :
    abiUserWriteBytes (bufAddr + copied) xs memory =
      some (storeBytes memory (bufAddr.toNat + copied.toNat) xs) := by
  obtain ⟨hne0, -, hrange⟩ := abiPtrRangeOk_iff.mp hbuf
  have hsize : kernelMemSize.toNat = 0x04000000 := rfl
  have hpos := List.length_pos_of_ne_nil hne
  have hpos' : 0 < bufAddr.toNat := BitVec.toNat_pos_of_ne_zero hne0
  have hgot : (BitVec.ofNat 32 xs.length).toNat = xs.length := by
    rw [BitVec.toNat_ofNat]
    omega
  have haddr : (bufAddr + copied).toNat = bufAddr.toNat + copied.toNat := by
    rw [BitVec.toNat_add]
    omega
  have hok : abiPtrRangeOk (bufAddr + copied) (BitVec.ofNat 32 xs.length) = true := by
    refine abiPtrRangeOk_iff.mpr ⟨fun h => ?_, fun h => ?_, by omega⟩
    · rw [h] at haddr
      change 0 = _ at haddr
      omega
    · rw [h] at hgot
      change 0 = _ at hgot
      omega
  rw [abiUserWriteBytes, if_neg (by omega), if_pos hok, haddr]

/-- A round that takes bytes stores them, and is the last one if they are fewer than it asked
for. -/
theorem readConsole_taken (hlt : copied < len) (hbuf : abiPtrRangeOk bufAddr len = true)
    {xs : List (BitVec 8)} {t : Tty}
    (hread : consoleRead (chunkSize len copied) (if copied ≠ 0 then true else nonblock) s.tty =
      ((xs.length : ℤ), xs, t))
    (hne : xs ≠ []) (hle : xs.length ≤ min 64 (len.toNat - copied.toNat)) :
    readConsole bufAddr len nonblock (n + 1) copied s =
      if xs.length < min 64 (len.toNat - copied.toNat) then
        (⟨copied + BitVec.ofNat 32 xs.length, .ok⟩,
          ⟨t, storeBytes s.memory (bufAddr.toNat + copied.toNat) xs⟩)
      else readConsole bufAddr len nonblock n (copied + BitVec.ofNat 32 xs.length)
        ⟨t, storeBytes s.memory (bufAddr.toNat + copied.toNat) xs⟩ := by
  have hlt' : copied.toNat < len.toNat := hlt
  have hpos := List.length_pos_of_ne_nil hne
  have hgot : (BitVec.ofNat 32 xs.length).toNat = xs.length := by
    rw [BitVec.toNat_ofNat]
    omega
  have hblocked : ¬ (xs.length : ℤ) = consoleIoBlocked := by
    change ¬ (xs.length : ℤ) = -1
    omega
  have hzero : ¬ (xs.length : ℤ) = 0 := by omega
  have hstore : abiUserWriteBytes (bufAddr + copied) xs s.memory = _ :=
    abiUserWriteBytes_within hbuf hne (by omega) s.memory
  rw [readConsole, if_pos hlt]
  dsimp only
  rw [hread]
  dsimp only
  rw [if_neg hblocked, if_neg hzero, hstore]
  dsimp only
  rw [BitVec.ofInt_natCast]
  have hless : BitVec.ofNat 32 xs.length < chunkSize len copied ↔
      xs.length < min 64 (len.toNat - copied.toNat) := by
    rw [BitVec.lt_def, hgot, toNat_chunkSize hlt]
  by_cases hshort : xs.length < min 64 (len.toNat - copied.toNat)
  · rw [if_pos hshort, if_pos (hless.mpr hshort)]
  · rw [if_neg hshort, if_neg fun h => hshort (hless.mp h)]

/-- What a read of a console that may be read, and that may not wait, returns. -/
theorem consoleRead_polled {want : BitVec 32} (hwant : want ≠ 0) (t : Tty) :
    consoleRead want true t =
      let r := consoleReadLoop t.console.canonical want.toNat t.console
      if t.console.canonical = true ∧ t.console.lines = 0 ∧ t.console.eofs = 0 then (0, [], t)
      else ((r.1.length : ℤ), r.1, { t with console := r.2.2 }) := by
  dsimp only
  by_cases hnone : t.console.canonical = true ∧ t.console.lines = 0 ∧ t.console.eofs = 0
  · rw [consoleRead_of_none hwant hnone, if_pos hnone]
    rfl
  · rw [consoleRead_of_some hwant hnone rfl, if_neg hnone]
    by_cases hbytes : (consoleReadLoop t.console.canonical want.toNat t.console).1 = []
    · rw [if_neg (by simp [hbytes]), hbytes]
      split_ifs <;> rfl
    · rw [if_pos (by simpa using hbytes)]

theorem readConsole_nothing (hcopied : copied ≠ 0) (hlt : copied < len) {t : Tty}
    {xs : List (BitVec 8)} (hread : consoleRead (chunkSize len copied)
      (if copied ≠ 0 then true else nonblock) s.tty = (0, xs, t)) :
    readConsole bufAddr len nonblock (n + 1) copied s = (⟨copied, .ok⟩, { s with tty := t }) := by
  rw [readConsole, if_pos hlt]
  dsimp only
  rw [hread]
  dsimp only
  rw [if_neg (by decide), if_pos rfl, if_pos hcopied]

/-- The call that copied some bytes and then takes the bytes `r.1`, and leaves the console
`r.2`. -/
def readStored (bufAddr copied : BitVec 32) (s : IoState) (r : List (BitVec 8) × Console) :
    SyscallResult × IoState :=
  (⟨copied + BitVec.ofNat 32 r.1.length, .ok⟩, ⟨{ s.tty with console := r.2 },
    storeBytes s.memory (bufAddr.toNat + copied.toNat) r.1⟩)

theorem readStored_nil (c : Console) : readStored bufAddr copied s ([], c) =
    (⟨copied, .ok⟩, { s with tty := { s.tty with console := c } }) := by
  rw [readStored, storeBytes_nil, List.length_nil, BitVec.add_zero]

theorem readStored_zero (r : List (BitVec 8) × Console) : readStored bufAddr 0 s r =
    (⟨BitVec.ofNat 32 r.1.length, .ok⟩, ⟨{ s.tty with console := r.2 },
      storeBytes s.memory bufAddr.toNat r.1⟩) := by
  have hadd : (0 : BitVec 32) + BitVec.ofNat 32 r.1.length = BitVec.ofNat 32 r.1.length :=
    BitVec.zero_add _
  rw [readStored, hadd]
  rfl

/-- A round that takes bytes, and the rounds that follow. -/
theorem readConsole_chunk (hlt : copied < len) (hbuf : abiPtrRangeOk bufAddr len = true)
    (hsome : ¬ (s.tty.console.canonical = true ∧ s.tty.console.lines = 0 ∧ s.tty.console.eofs = 0))
    {r : List (BitVec 8) × Bool × Console} (hloop : consoleReadLoop s.tty.console.canonical
      (min 64 (len.toNat - copied.toNat)) s.tty.console = r)
    (hread : consoleRead (chunkSize len copied) (if copied ≠ 0 then true else nonblock) s.tty =
      ((r.1.length : ℤ), r.1, { s.tty with console := r.2.2 }))
    (hbytes : r.1 ≠ [])
    (hrest : ∀ (copied' : BitVec 32) (s' : IoState), copied' ≠ 0 →
      readConsole bufAddr len nonblock n copied' s' = readStored bufAddr copied' s'
        (readRounds s'.tty.console.canonical n (len.toNat - copied'.toNat) s'.tty.console)) :
    readConsole bufAddr len nonblock (n + 1) copied s = readStored bufAddr copied s
      (readRounds s.tty.console.canonical (n + 1) (len.toNat - copied.toNat) s.tty.console) := by
  have hlt' : copied.toNat < len.toNat := hlt
  have hpos := List.length_pos_of_ne_nil hbytes
  have hlength : r.1.length ≤ min 64 (len.toNat - copied.toNat) := hloop ▸ readLoop_length_le
  rw [readConsole_taken hlt hbuf hread hbytes hlength, readRounds,
    if_neg (not_or.mpr ⟨by omega, hsome⟩), hloop]
  dsimp only
  by_cases hshort : r.1.length < min 64 (len.toNat - copied.toNat)
  · rw [if_pos hshort, if_pos hshort]
    rfl
  · have hgot : (copied + BitVec.ofNat 32 r.1.length).toNat = copied.toNat + r.1.length := by
      have hlen := len.isLt
      rw [BitVec.toNat_add, BitVec.toNat_ofNat]
      omega
    have hne : copied + BitVec.ofNat 32 r.1.length ≠ 0 := by
      intro h
      rw [h] at hgot
      change 0 = _ at hgot
      omega
    have hmode : r.2.2.canonical = s.tty.console.canonical := by
      rw [Console.canonical, Console.canonical, ← hloop, readLoop_lflag]
    have hrem : len.toNat - (copied + BitVec.ofNat 32 r.1.length).toNat =
        len.toNat - copied.toNat - min 64 (len.toNat - copied.toNat) := by omega
    have haddr : bufAddr.toNat + (copied + BitVec.ofNat 32 r.1.length).toNat =
        bufAddr.toNat + copied.toNat + r.1.length := by omega
    rw [if_neg hshort, if_neg hshort, hrest _ _ hne]
    dsimp only
    rw [hmode, hrem, readStored, readStored, haddr, storeBytes_append, List.length_append,
      BitVec.ofNat_add, BitVec.add_assoc]

/-- Rounds that may not wait store what they take. -/
theorem readConsole_rest (hcopied : copied ≠ 0) (hbuf : abiPtrRangeOk bufAddr len = true)
    (s : IoState) : readConsole bufAddr len nonblock n copied s = readStored bufAddr copied s
      (readRounds s.tty.console.canonical n (len.toNat - copied.toNat) s.tty.console) := by
  induction n generalizing copied s with
  | zero => exact (readStored_nil _).symm
  | succ n ih =>
    by_cases hlt : copied < len
    · have hlt' : copied.toNat < len.toNat := hlt
      have hwant : chunkSize len copied ≠ 0 :=
        fun h => (chunkSize_spec hlt).1 (congrArg BitVec.toNat h)
      have hread := consoleRead_polled hwant s.tty
      dsimp only at hread
      rw [toNat_chunkSize hlt] at hread
      by_cases hnone : s.tty.console.canonical = true ∧ s.tty.console.lines = 0 ∧
          s.tty.console.eofs = 0
      · rw [if_pos hnone] at hread
        rw [readConsole_nothing hcopied hlt (by rw [if_pos hcopied]; exact hread),
          readRounds_none hnone, readStored_nil]
      · rw [if_neg hnone] at hread
        generalize hloop : consoleReadLoop s.tty.console.canonical
          (min 64 (len.toNat - copied.toNat)) s.tty.console = r at hread
        by_cases hbytes : r.1 = []
        · rw [hbytes, List.length_nil] at hread
          rw [readConsole_nothing hcopied hlt (by rw [if_pos hcopied]; exact hread), readRounds,
            if_neg (not_or.mpr ⟨by omega, hnone⟩), hloop]
          dsimp only
          rw [hbytes, if_pos (by rw [List.length_nil]; omega), readStored_nil]
        · exact readConsole_chunk hlt hbuf hnone hloop (by rw [if_pos hcopied]; exact hread) hbytes
            fun _ s' hne => ih hne s'
    · have hrem : len.toNat - copied.toNat = 0 := by
        have hge : ¬ copied.toNat < len.toNat := hlt
        omega
      rw [readConsole, if_neg hlt, hrem, readRounds_zero, readStored_nil]

end Call

/-! ## One read into the whole buffer -/

/-- The call with one `console_read` into the caller's buffer. -/
def readOnce (bufAddr len : BitVec 32) (nonblock : Bool) (s : IoState) :
    SyscallResult × IoState :=
  let (rc, bytes, tty) := consoleRead len nonblock s.tty
  let s := { s with tty := tty }
  if rc = consoleIoBlocked then (syscallFailure .eagain, s)
  else if rc = 0 then
    if nonblock then (syscallFailure .eagain, s) else (⟨0, .ok⟩, s)
  else (⟨BitVec.ofInt 32 rc, .ok⟩, { s with memory := storeBytes s.memory bufAddr.toNat bytes })

section Once

variable {bufAddr len fd flags : BitVec 32} {nonblock : Bool} {n : ℕ} {s : IoState}

@[simp] theorem readOnce_tty : (readOnce bufAddr len nonblock s).2.tty =
    (consoleRead len nonblock s.tty).2.2 := by
  unfold readOnce
  dsimp only
  split_ifs <;> rfl

/-- A first round that takes nothing ends the call. -/
theorem readConsole_first_nothing (hlt : 0 < len)
    (hsame : consoleRead (chunkSize len 0) nonblock s.tty = consoleRead len nonblock s.tty)
    (hrc : (consoleRead len nonblock s.tty).1 = consoleIoBlocked ∨
      (consoleRead len nonblock s.tty).1 = 0) :
    readConsole bufAddr len nonblock (n + 1) 0 s = readOnce bufAddr len nonblock s := by
  rw [readConsole, if_pos hlt, readOnce]
  dsimp only
  rw [if_neg (not_not.mpr rfl), hsame]
  by_cases hblocked : (consoleRead len nonblock s.tty).1 = consoleIoBlocked
  · rw [if_pos hblocked, if_pos hblocked, if_pos rfl]
  · have hzero := hrc.resolve_left hblocked
    rw [if_neg hblocked, if_neg hblocked, if_pos hzero, if_pos hzero, if_neg (not_not.mpr rfl)]

/-- A console from which a read takes no bytes. -/
def Console.TakesNothing (c : Console) : Prop :=
  (c.canonical = true ∧ c.lines = 0 ∧ c.eofs = 0) ∨ c.contents = [] ∨
    c.canonical = true ∧ c.contents.head? = some ttyCcVeof

/-- The call ends with the first round. -/
theorem readConsole_of_nothing (hbuf : abiPtrRangeOk bufAddr len = true) (nonblock : Bool)
    (h : s.tty.console.TakesNothing) : ¬ s.tty.console.SplitLine len.toNat ∧
      readConsole bufAddr len nonblock len.toNat 0 s = readOnce bufAddr len nonblock s := by
  obtain ⟨-, hlen, -⟩ := abiPtrRangeOk_iff.mp hbuf
  obtain ⟨n, hn⟩ := Nat.exists_eq_add_one_of_ne_zero (BitVec.toNat_ne_iff_ne.mpr hlen)
  have hlt : 0 < len := BitVec.lt_def.mpr (BitVec.toNat_pos_of_ne_zero hlen)
  have hwant : chunkSize len 0 ≠ 0 := fun h => (chunkSize_spec hlt).1 (congrArg BitVec.toNat h)
  have hsum : min 64 len.toNat + (len.toNat - min 64 len.toNat) = len.toNat := by omega
  by_cases hnone : s.tty.console.canonical = true ∧ s.tty.console.lines = 0 ∧ s.tty.console.eofs = 0
  · have hread := consoleRead_of_none hlen hnone nonblock
    rw [hn]
    refine ⟨fun hsplit => hsplit.2.1 hnone.2.1, readConsole_first_nothing hlt ?_ ?_⟩
    · rw [consoleRead_of_none hwant hnone, hread]
    · rw [hread]
      cases nonblock with
      | true => exact .inr rfl
      | false => exact .inl rfl
  · have hfirst := consoleRead_of_some hwant hnone rfl nonblock
    have hwhole := consoleRead_of_some hlen hnone rfl nonblock
    have hbytes :
        (consoleReadLoop s.tty.console.canonical (min 64 len.toNat) s.tty.console).1 = [] :=
      (readLoop_eq_nil_iff (by omega)).mpr (h.resolve_left hnone)
    obtain ⟨hloop, hsplit⟩ : _ ∧ ¬ s.tty.console.SplitLine len.toNat :=
      readLoop_of_nil (by omega) hbytes (len.toNat - min 64 len.toNat)
    rw [hsum] at hloop
    rw [toNat_chunkSize hlt] at hfirst
    rw [hloop] at hwhole
    have hsame := hfirst.trans hwhole.symm
    rw [hn]
    refine ⟨hn ▸ hsplit, readConsole_first_nothing hlt hsame ?_⟩
    rw [hwhole, hbytes, if_neg (by simp)]
    split_ifs
    · exact .inr rfl
    · cases nonblock with
      | true => exact .inr rfl
      | false => exact .inl rfl

/-- The call stores what its rounds take. -/
theorem readConsole_of_bytes (hbuf : abiPtrRangeOk bufAddr len = true) (nonblock : Bool)
    (h : ¬ s.tty.console.TakesNothing) :
    readConsole bufAddr len nonblock len.toNat 0 s = readStored bufAddr 0 s
      (readRounds s.tty.console.canonical len.toNat len.toNat s.tty.console) := by
  obtain ⟨-, hlen, -⟩ := abiPtrRangeOk_iff.mp hbuf
  obtain ⟨n, hn⟩ := Nat.exists_eq_add_one_of_ne_zero (BitVec.toNat_ne_iff_ne.mpr hlen)
  have hlt : 0 < len := BitVec.lt_def.mpr (BitVec.toNat_pos_of_ne_zero hlen)
  have hwant : chunkSize len 0 ≠ 0 := fun h => (chunkSize_spec hlt).1 (congrArg BitVec.toNat h)
  obtain ⟨hnone, hnil⟩ := not_or.mp h
  have hfirst := consoleRead_of_some hwant hnone rfl nonblock
  rw [show (chunkSize len 0).toNat = min 64 len.toNat from toNat_chunkSize hlt] at hfirst
  have hbytes : (consoleReadLoop s.tty.console.canonical (min 64 len.toNat) s.tty.console).1 ≠ [] :=
    fun h => hnil ((readLoop_eq_nil_iff (by omega)).mp h)
  rw [if_pos (by simpa using hbytes)] at hfirst
  have hchunks := readConsole_chunk (n := n) hlt hbuf hnone rfl
    (by rw [if_neg (not_not.mpr rfl)]; exact hfirst) hbytes
    fun _ s' hne => readConsole_rest hne hbuf s'
  rwa [← hn] at hchunks

/-- One read into the whole buffer, when it takes bytes. -/
theorem readOnce_of_bytes (hlen : len ≠ 0) (nonblock : Bool) (h : ¬ s.tty.console.TakesNothing) :
    readOnce bufAddr len nonblock s = readStored bufAddr 0 s
      ((consoleReadLoop s.tty.console.canonical len.toNat s.tty.console).1,
        (consoleReadLoop s.tty.console.canonical len.toNat s.tty.console).2.2) := by
  obtain ⟨hnone, hnil⟩ := not_or.mp h
  have hwhole := consoleRead_of_some hlen hnone rfl nonblock
  have hbytes : (consoleReadLoop s.tty.console.canonical len.toNat s.tty.console).1 ≠ [] :=
    fun h => hnil ((readLoop_eq_nil_iff (BitVec.toNat_ne_iff_ne.mpr hlen)).mp h)
  have hpos := List.length_pos_of_ne_nil hbytes
  rw [if_pos (by simpa using hbytes)] at hwhole
  rw [readOnce, hwhole]
  dsimp only
  rw [if_neg (by change ¬ (_ : ℤ) = -1; omega), if_neg (by omega), readStored_zero,
    BitVec.ofInt_natCast]

/-- Unless a line is split the call does what one read does. If one is, it takes more. -/
theorem readConsole_cases (hbuf : abiPtrRangeOk bufAddr len = true) (nonblock : Bool)
    (s : IoState) :
    (¬ s.tty.console.SplitLine len.toNat ∧
      readConsole bufAddr len nonblock len.toNat 0 s = readOnce bufAddr len nonblock s) ∨
    (s.tty.console.SplitLine len.toNat ∧
      (readConsole bufAddr len nonblock len.toNat 0 s).2.tty.console.contents.length <
        (readOnce bufAddr len nonblock s).2.tty.console.contents.length) := by
  obtain ⟨-, hlen, -⟩ := abiPtrRangeOk_iff.mp hbuf
  by_cases hnothing : s.tty.console.TakesNothing
  · exact .inl (readConsole_of_nothing hbuf nonblock hnothing)
  · rw [readConsole_of_bytes hbuf nonblock hnothing, readOnce_of_bytes hlen nonblock hnothing]
    rcases readRounds_cases le_rfl (not_or.mp hnothing).1 with ⟨hsplit, hsame⟩ | ⟨hsplit, hmore⟩
    · exact .inl ⟨hsplit, by rw [hsame]⟩
    · exact .inr ⟨hsplit, hmore⟩

end Once

/-! ## Transparent chunks -/

/-- What is taken has no mark before its end. -/
def Console.TakesRecord (c c' : Console) : Prop :=
  ∃ taken, c.contents = taken ++ c'.contents ∧ ∀ ch ∈ taken.dropLast, editable ch = true

theorem takeRecord_taken (n : ℕ) (xs : List (BitVec 8)) :
    ∃ taken, xs = taken ++ (takeRecord n xs).2.2 ∧ ∀ ch ∈ taken.dropLast, editable ch = true := by
  induction n generalizing xs with
  | zero => exact ⟨[], rfl, List.forall_mem_nil _⟩
  | succ n ih =>
    cases xs with
    | nil => exact ⟨[], rfl, List.forall_mem_nil _⟩
    | cons ch xs =>
      rw [takeRecord]
      by_cases heof : ch = ttyCcVeof
      · rw [if_pos heof]
        exact ⟨[ch], rfl, List.forall_mem_nil _⟩
      · by_cases hlf : ch = asciiLf
        · rw [if_neg heof, if_pos hlf]
          exact ⟨[ch], rfl, List.forall_mem_nil _⟩
        · obtain ⟨taken, hxs, htaken⟩ := ih xs
          rw [if_neg heof, if_neg hlf]
          refine ⟨ch :: taken, congrArg (ch :: ·) hxs, ?_⟩
          cases taken with
          | nil => exact List.forall_mem_nil _
          | cons b taken =>
            rw [List.dropLast_cons_cons]
            exact forall_cons_editable (editable_of_ne hlf heof) htaken

/-- One canonical read takes one record. -/
theorem consoleRead_takesRecord {t : Tty} (hcan : t.console.canonical = true)
    (hcounted : t.console.view.Counted) (len : BitVec 32) (nonblock : Bool) :
    t.console.TakesRecord (consoleRead len nonblock t).2.2.console := by
  rw [read_console]
  split_ifs
  · exact ⟨[], rfl, List.forall_mem_nil _⟩
  · obtain ⟨c', hrun, hcontents, -⟩ := readLoop_canonical (n := len.toNat) hcounted
    obtain ⟨taken, hxs, htaken⟩ := takeRecord_taken len.toNat t.console.contents
    rw [hcan, hrun]
    refine ⟨taken, ?_, htaken⟩
    rw [hcontents]
    exact hxs

/-- A `SYS_READ` stores, returns and leaves what one `console_read` into the buffer does. In
particular, while the counters of a console in canonical mode match its ring, it takes at most
one record. -/
structure ChunksTransparent (fd bufAddr len flags : BitVec 32) (s : IoState) : Prop where
  same : sysRead fd bufAddr len flags s =
    readOnce bufAddr len (fdIsNonblock fd s.tty || (flags &&& sysIoNonblock ≠ 0)) s
  record : s.tty.console.canonical = true → s.tty.console.view.Counted →
    s.tty.console.TakesRecord (sysRead fd bufAddr len flags s).2.tty.console

section Transparent

variable {bufAddr len fd flags : BitVec 32} {s : IoState}

theorem sysRead_console (hread : fdSupportsRead fd s.tty = true)
    (hconsole : fdWaitsConsoleRead fd s.tty = true) (hbuf : abiPtrRangeOk bufAddr len = true) :
    sysRead fd bufAddr len flags s = readConsole bufAddr len
      (fdIsNonblock fd s.tty || (flags &&& sysIoNonblock ≠ 0)) len.toNat 0 s := by
  obtain ⟨haddr, hlen, -⟩ := abiPtrRangeOk_iff.mp hbuf
  rw [sysRead, if_neg (not_not.mpr hread), if_neg hlen,
    if_neg (not_or.mpr ⟨haddr, not_not.mpr hbuf⟩)]
  rcases of_decide_eq_true hconsole with htype | htype
  · rw [htype]
    rfl
  · rw [htype]
    rfl

/-- For every console and every descriptor on it: the chunks are transparent exactly when no
line is split. -/
theorem chunks_transparent_iff (hread : fdSupportsRead fd s.tty = true)
    (hconsole : fdWaitsConsoleRead fd s.tty = true) (hbuf : abiPtrRangeOk bufAddr len = true) :
    ChunksTransparent fd bufAddr len flags s ↔ ¬ s.tty.console.SplitLine len.toNat := by
  have hcall : sysRead fd bufAddr len flags s = _ := sysRead_console hread hconsole hbuf
  rcases readConsole_cases hbuf (fdIsNonblock fd s.tty || (flags &&& sysIoNonblock ≠ 0)) s with
    ⟨hwhole, hsame⟩ | ⟨hsplit, hmore⟩
  · refine iff_of_true ⟨hcall.trans hsame, fun hcan hcounted => ?_⟩ hwhole
    rw [hcall, hsame, readOnce_tty]
    exact consoleRead_takesRecord hcan hcounted _ _
  · refine iff_of_false (fun h => ?_) (not_not.mpr hsplit)
    rw [← hcall, h.same] at hmore
    exact lt_irrefl _ hmore

end Transparent

/-- A line end is typed, and 128 bytes are read. -/
theorem chunks_transparent_typed :
    ChunksTransparent 0 0x2000 128 1 (stdinTyped asciiLf) := by
  have hfds : (stdinTyped asciiLf).tty.fds = _ := stdinTyped_fds rfl
  refine (chunks_transparent_iff ?_ ?_ (by decide)).mpr ?_
  · rw [fdSupportsRead, hfds]
    decide
  · unfold fdWaitsConsoleRead fdType
    rw [hfds]
    decide
  · rintro ⟨-, -, -, line, rest, hline, -, -, -, hrest⟩
    have hlength := congrArg List.length hline
    rw [stdinTyped_contents rfl, List.length_singleton, List.length_append, List.length_cons]
      at hlength
    exact hrest (List.eq_nil_of_length_eq_zero (by omega))

/-- A line of 64 bytes with its end, and a line of two. -/
def twoLines : IoState where
  tty := { stdinTask with console :=
    { buf := fun i => if i = 63 ∨ i = 65 then asciiLf else 0x61
      head := 66, tail := 0, dropped := 0, lines := 2, eofs := 0, lflag := 7 } }
  memory := fun _ => 0

theorem twoLines_contents : twoLines.tty.console.contents =
    List.replicate 63 0x61 ++ asciiLf :: [0x61, asciiLf] := by
  decide +kernel

/-- A read of 128 bytes returns both lines. -/
theorem chunks_cross_lines : ¬ ∀ (fd bufAddr len flags : BitVec 32) (s : IoState),
    fdSupportsRead fd s.tty = true → fdWaitsConsoleRead fd s.tty = true →
    abiPtrRangeOk bufAddr len = true → consoleCanRead s.tty.console = true →
    ChunksTransparent fd bufAddr len flags s := by
  intro h
  have hfds : twoLines.tty.fds = some .initStdio := rfl
  have hread : fdSupportsRead 0 twoLines.tty = true := by
    rw [fdSupportsRead, hfds]
    decide
  have hconsole : fdWaitsConsoleRead 0 twoLines.tty = true := by
    unfold fdWaitsConsoleRead fdType
    rw [hfds]
    decide
  have hbuf : abiPtrRangeOk 0x2000 128 = true := by decide
  have hsame := (h 0 0x2000 128 1 twoLines hread hconsole hbuf (by decide)).same
  rw [sysRead_console hread hconsole hbuf] at hsame
  have hlines : twoLines.tty.console.SplitLine 128 := by
    refine ⟨by decide, by decide, .inl (by decide), _, _, twoLines_contents, ?_, ?_, ?_,
      List.cons_ne_nil _ _⟩
    · intro ch hch
      rw [List.eq_of_mem_replicate hch]
      rfl
    · rw [List.length_replicate]
    · rw [List.length_replicate]
      decide
  rcases readConsole_cases hbuf
      (fdIsNonblock 0 twoLines.tty || ((1 : BitVec 32) &&& sysIoNonblock ≠ 0)) twoLines with
    ⟨hwhole, -⟩ | ⟨-, hmore⟩
  · exact hwhole hlines
  · rw [hsame] at hmore
    exact lt_irrefl _ hmore

end LampVm
