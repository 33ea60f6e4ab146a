import LampVm.ConsoleWait
import LampVm.LineDiscipline

/-!
# Line ends

Whether the end of a line reaches a reader in canonical mode. The byte that ends the line takes a
place in the ring like every other byte. A ring that is full of one unfinished line has no place
for it; an interrupt character first gives up the line.
-/
namespace LampVm

open Transition

/-- Canonical mode stays on. -/
def CanonicalOnly (_ : Tty) : ConsoleCall → Prop
  | .setLflag lflag => lflag &&& ttyLflagIcanon ≠ 0
  | _ => True

/-- A character that ends a line. -/
def EndsLine (c : Console) (ch : BitVec 8) : Prop :=
  ch = asciiCr ∨ ch = asciiLf ∨ ch = ttyCcVintr ∧ c.lflag &&& ttyLflagIsig ≠ 0

section View

variable {v : ConsoleView} {t : Tty} {ch : BitVec 8}

/-- With right counters a canonical reader may read when there is a mark. -/
theorem ConsoleView.Counted.canRead_iff (h : v.Counted) (hcan : v.canonical = true) :
    v.canRead ↔ v.HasMark := by
  rw [ConsoleView.canRead_canonical hcan]
  have hpos {x : BitVec 32} {m : BitVec 8} (hx : x.toNat = v.contents.count m) :
      x ≠ 0 ↔ m ∈ v.contents := by
    rw [← List.count_pos_iff, ← hx, ← BitVec.toNat_ne_iff_ne]
    exact Nat.pos_iff_ne_zero.symm
  rw [hpos h.lines, hpos h.eofs]
  constructor
  · rintro (hmem | hmem)
    · exact ⟨_, hmem, rfl⟩
    · exact ⟨_, hmem, rfl⟩
  · rintro ⟨m, hmem, hmark⟩
    rcases of_decide_eq_true hmark with rfl | rfl
    · exact .inl hmem
    · exact .inr hmem

theorem ConsoleView.hasMark_push (hroom : v.contents.length ≠ 255) (hmark : isMark ch = true) :
    (v.push ch).HasMark := by
  rw [ConsoleView.push, if_neg hroom]
  exact ⟨ch, List.mem_append_right _ (List.mem_singleton_self ch), hmark⟩

/-- After editing the ring is empty, or a mark is last. -/
theorem ConsoleView.erase_cases (v : ConsoleView) : v.erase.contents = [] ∨ v.erase.HasMark := by
  by_cases hnil : v.erase.contents = []
  · exact .inl hnil
  · have hlast : ¬ editable (v.erase.contents.getLast hnil) = true :=
      List.rdropWhile_last_not editable v.contents hnil
    refine .inr ⟨_, List.getLast_mem hnil, ?_⟩
    simpa [editable] using hlast

/-- A line end is in the ring unless the ring was full and had none. -/
theorem ConsoleView.hasMark_push_iff (hmark : isMark ch = true) :
    (v.push ch).HasMark ↔ ¬ (v.contents.length = 255 ∧ ¬ v.HasMark) := by
  by_cases hfull : v.contents.length = 255
  · rw [ConsoleView.push, if_pos hfull]
    tauto
  · exact iff_of_true (v.hasMark_push hfull hmark) fun h => hfull h.1

/-- An interrupt always ends a line. -/
theorem ConsoleView.hasMark_interrupt (v : ConsoleView) : (v.erase.push asciiLf).HasMark := by
  refine (ConsoleView.hasMark_push_iff rfl).mpr ?_
  rintro ⟨hfull, hnone⟩
  rcases v.erase_cases with hnil | hmark
  · rw [hnil] at hfull
    cases hfull
  · exact hnone hmark

/-- The characters that a console changes, or does not just store. -/
def controls : List (BitVec 8) :=
  [asciiCr, ttyCcVintr, ttyCcVkill, ttyCcVeraseBs, ttyCcVeraseDel, ttyCcVeof, 0]

theorem ConsoleView.feed_plain (v : ConsoleView) (h : ch ∉ controls) : v.feed ch = v.push ch := by
  simp only [controls, List.mem_cons, List.not_mem_nil, or_false, not_or] at h
  obtain ⟨hcr, hintr, hkill, hbs, hdel, heof, hzero⟩ := h
  unfold ConsoleView.feed
  rw [if_neg hcr]
  dsimp only
  rw [if_neg fun h => hintr h.1, if_neg fun h => hkill h.2, if_neg fun h => h.2.elim hbs hdel,
    if_neg fun h => heof h.2, if_neg hzero]

theorem ConsoleView.feed_enter (v : ConsoleView) (h : ch = asciiCr ∨ ch = asciiLf) :
    v.feed ch = v.push asciiLf := by
  have hplain : v.feed asciiLf = v.push asciiLf := v.feed_plain (by decide)
  rcases h with rfl | rfl
  · exact hplain
  · exact hplain

theorem ConsoleView.feed_interrupt (v : ConsoleView) (h : v.lflag &&& ttyLflagIsig ≠ 0) :
    v.feed ttyCcVintr = v.erase.push asciiLf := by
  have hch : (if ttyCcVintr = asciiCr then asciiLf else ttyCcVintr) = ttyCcVintr := rfl
  unfold ConsoleView.feed
  rw [hch]
  dsimp only
  rw [if_pos ⟨rfl, h⟩]

end View

/-! ## Runs in canonical mode -/

section Run

variable {t : Tty} {ch : BitVec 8}

/-- Canonical mode and right counters are kept. -/
theorem canonicalOnly_run (h : Reachable (consoleCalls.restrict CanonicalOnly) t) :
    t.console.canonical = true ∧ t.console.view.Counted := by
  refine h.invariant (P := fun t => t.console.canonical = true ∧ t.console.view.Counted) ?_ ?_
  · rintro t ⟨t₀, rfl⟩
    refine ⟨?_, counted_init t₀⟩
    change decide ((7 : BitVec 32) &&& ttyLflagIcanon ≠ 0) = true
    decide
  · rintro t call u ⟨hcan, hcounted⟩ ⟨hallowed, hs⟩
    refine canonical_step hcan hcounted ?_ hs
    rintro lflag rfl
    exact hallowed

/-- In every run in canonical mode: after the end of a line there is something to read, unless the
ring was full of one unfinished line and the line was not ended by an interrupt. -/
theorem line_end_readable_iff (h : Reachable (consoleCalls.restrict CanonicalOnly) t)
    (hch : EndsLine t.console ch) : consoleCanRead (consoleRxFeed ch t).console = true ↔
      ¬ (ch ≠ ttyCcVintr ∧ t.console.contents.length = 255 ∧
        ∀ b ∈ t.console.contents, isMark b = false) := by
  obtain ⟨hcan, hcounted⟩ := canonicalOnly_run h
  have hview := feed_view ch t
  have hcounted' : (t.console.view.feed ch).Counted :=
    hcounted.feed t.console.contents_length_le ch
  have hcan' : (t.console.view.feed ch).canonical = true := by
    rw [ConsoleView.canonical, ConsoleView.feed_lflag]
    exact hcan
  rw [canRead_iff, hview, hcounted'.canRead_iff hcan']
  have henter (henter : ch = asciiCr ∨ ch = asciiLf) (hintr : ch ≠ ttyCcVintr) :
      (t.console.view.feed ch).HasMark ↔ ¬ (ch ≠ ttyCcVintr ∧ t.console.contents.length = 255 ∧
        ∀ b ∈ t.console.contents, isMark b = false) := by
    have hnone : ¬ t.console.view.HasMark ↔ ∀ b ∈ t.console.contents, isMark b = false := by
      simp [ConsoleView.HasMark, Console.view]
    rw [ConsoleView.feed_enter _ henter, ConsoleView.hasMark_push_iff rfl, hnone]
    change ¬ (t.console.contents.length = 255 ∧ _) ↔ _
    tauto
  rcases hch with rfl | rfl | ⟨rfl, hisig⟩
  · exact henter (.inl rfl) (by decide)
  · exact henter (.inr rfl) (by decide)
  · rw [ConsoleView.feed_interrupt _ hisig]
    exact iff_of_true t.console.view.hasMark_interrupt fun h => h.1 rfl

end Run

/-- A console on which the same character has been typed `n` times. -/
def typedTimes (ch : BitVec 8) (n : ℕ) : Tty := (consoleRxFeed ch)^[n] (consoleInit .zero)

section Typed

variable {ch : BitVec 8} {n : ℕ}

theorem typedTimes_succ (ch : BitVec 8) (n : ℕ) :
    typedTimes ch (n + 1) = consoleRxFeed ch (typedTimes ch n) :=
  Function.iterate_succ_apply' _ _ _

theorem typedTimes_reachable (ch : BitVec 8) (n : ℕ) :
    Reachable (consoleCalls.restrict CanonicalOnly) (typedTimes ch n) := by
  induction n with
  | zero => exact .of_init ⟨_, rfl⟩
  | succ n ih =>
    rw [typedTimes_succ]
    exact ih.step (l := .feed ch) ⟨trivial, rfl⟩

theorem typedTimes_view (hn : n ≤ 255) :
    (typedTimes 0x61 n).console.view = ⟨List.replicate n 0x61, 0, 0, 7⟩ := by
  induction n with
  | zero => exact view_init _
  | succ n ih =>
    have hroom : (List.replicate n (0x61 : BitVec 8)).length ≠ 255 := by
      rw [List.length_replicate]
      omega
    rw [typedTimes_succ, feed_view, ih (by omega), ConsoleView.feed_plain _ (by decide),
      ConsoleView.push, if_neg hroom, List.replicate_succ']
    rfl

theorem typedTimes_contents (hn : n ≤ 255) :
    (typedTimes 0x61 n).console.contents = List.replicate n 0x61 :=
  congrArg ConsoleView.contents (typedTimes_view hn)

end Typed

/-- A line of one letter is ended. -/
theorem line_end_readable_letter :
    consoleCanRead (consoleRxFeed asciiCr (typedTimes 0x61 1)).console = true := by
  refine (line_end_readable_iff (typedTimes_reachable 0x61 1) (.inl rfl)).mpr ?_
  rw [typedTimes_contents (by decide)]
  rintro ⟨-, hfull, -⟩
  exact absurd hfull (by decide)

/-- A line of 255 letters cannot be ended. -/
theorem line_end_lost : ¬ ∀ (t : Tty) (ch : BitVec 8),
    Reachable (consoleCalls.restrict CanonicalOnly) t → EndsLine t.console ch →
    consoleCanRead (consoleRxFeed ch t).console = true := by
  intro hall
  have hreach := typedTimes_reachable 0x61 255
  have hcontents := typedTimes_contents (n := 255) le_rfl
  refine (line_end_readable_iff hreach (.inl rfl)).mp (hall _ asciiCr hreach (.inl rfl))
    ⟨by decide, ?_, ?_⟩
  · rw [hcontents, List.length_replicate]
  · intro b hb
    rw [hcontents] at hb
    rw [List.eq_of_mem_replicate hb]
    rfl

end LampVm
