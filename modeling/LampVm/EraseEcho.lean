import LampVm.ConsoleGrid
import LampVm.LineDiscipline

/-!
# Erasing what was echoed

A byte that is stored in the ring is echoed only if it is printable or one of a few control
characters, while erasing it sends one backspace in any case. The two undo each other when
the byte has moved the cursor by one cell.
-/
namespace LampVm

open Contract

/-- The bytes that `console_echo_data_char` passes on. -/
def Echoed (ch : BitVec 8) : Prop :=
  ch = 0x07 ∨ ch = asciiLf ∨ ch = asciiCr ∨ ch = 0x09 ∨ ch = 0x0B ∨ ch = 0x0C ∨
    (0x20 ≤ ch ∧ ch ≤ 0x7E)

instance (ch : BitVec 8) : Decidable (Echoed ch) := inferInstanceAs (Decidable (_ ∨ _))

/-- The byte becomes the last one in the ring, as a byte that may be edited. -/
def StoresEditable (t : Tty) (ch : BitVec 8) : Prop :=
  ∃ b, editable b = true ∧ (consoleRxFeed ch t).console.contents = t.console.contents ++ [b]

/-- The bytes arrive one after the other on a terminal that has not printed anything yet. -/
def typed (chs : List (BitVec 8)) (t : Tty) : Tty :=
  chs.foldl (fun t ch => consoleRxFeed ch t) { t with screen := [] }

/-- The values of the calls of `console_fb_putc`, in order. -/
def Tty.printed (t : Tty) : List (BitVec 32) := t.screen.reverse.map (BitVec.setWidth 32)

/-! ## The ring -/

section Ring

variable {t u : Tty} {ch : BitVec 8} {xs : List (BitVec 8)}

theorem ConsoleView.push_contents {v : ConsoleView} {b : BitVec 8}
    (h : (v.push ch).contents = xs ++ [b]) (hlen : v.contents.length ≤ xs.length) :
    v.contents.length ≠ 255 ∧ b = ch := by
  by_cases hfull : v.contents.length = 255
  · rw [ConsoleView.push, if_pos hfull] at h
    rw [h, List.length_append, List.length_singleton] at hlen
    omega
  · rw [ConsoleView.push, if_neg hfull] at h
    exact ⟨hfull, (List.singleton_inj.mp (List.append_inj_right' h rfl)).symm⟩

/-- A byte is stored as it is, by the last call of `console_rx_feed`. -/
theorem StoresEditable.feed_eq (h : StoresEditable t ch) :
    consoleRxFeed ch t = consoleRxEnqueueChar ch true t ∧ editable ch = true ∧ ch ≠ asciiCr ∧
      t.console.contents.length ≠ 255 := by
  obtain ⟨b, hb, hcontents⟩ := h
  have hview : (t.console.view.feed ch).contents = t.console.contents ++ [b] := by
    rw [← feed_view]
    exact hcontents
  have hshorter : t.console.view.erase.contents.length ≤ t.console.contents.length :=
    (List.rdropWhile_prefix editable _).length_le
  unfold ConsoleView.feed at hview
  unfold consoleRxFeed
  generalize hnorm : (if ch = asciiCr then asciiLf else ch) = ch' at hview ⊢
  dsimp only at hview ⊢
  have hcanonical : t.console.canonical = t.console.view.canonical := rfl
  have hlflag : t.console.lflag = t.console.view.lflag := rfl
  rw [hcanonical, hlflag]
  split_ifs at hview ⊢ with hintr hkill herase heof hzero
  · obtain ⟨-, rfl⟩ := ConsoleView.push_contents hview hshorter
    cases hb
  · rw [hview] at hshorter
    simp at hshorter
  · have hpop : t.console.view.pop.contents.length ≤ t.console.contents.length := by
      rcases t.console.view.pop_cases with ⟨-, hself⟩ | ⟨xs, b', -, hconcat, hpop⟩
      · rw [hself]
        rfl
      · have hlen := congrArg List.length hconcat
        rw [List.length_append] at hlen
        rw [hpop]
        exact Nat.le_of_add_right_le hlen.ge
    rw [hview] at hpop
    simp at hpop
  · obtain ⟨-, rfl⟩ := ConsoleView.push_contents hview le_rfl
    rw [heof.2] at hb
    cases hb
  · have hlen := congrArg List.length hview
    simp [Console.view] at hlen
  · obtain ⟨hroom, rfl⟩ := ConsoleView.push_contents hview le_rfl
    have hcr : ch ≠ asciiCr := by
      rintro rfl
      rw [if_pos rfl] at hnorm
      rw [← hnorm] at hb
      cases hb
    rw [if_neg hcr] at hnorm
    rw [hnorm]
    exact ⟨rfl, hb, hnorm ▸ hcr, hroom⟩

theorem echoDataChar_screen (hecho : t.console.lflag &&& ttyLflagEcho ≠ 0) (ch : BitVec 8) :
    (consoleEchoDataChar ch t).screen = if Echoed ch then ch :: t.screen else t.screen := by
  rw [consoleEchoDataChar, if_neg hecho]
  by_cases h : Echoed ch
  · rw [if_pos h]
    exact congrArg Tty.screen (if_pos h)
  · rw [if_neg h]
    exact congrArg Tty.screen (if_neg h)

theorem enqueueChar_screen (hecho : t.console.lflag &&& ttyLflagEcho ≠ 0)
    (hroom : t.console.contents.length ≠ 255) (ch : BitVec 8) :
    (consoleRxEnqueueChar ch true t).screen = if Echoed ch then ch :: t.screen else t.screen := by
  have hfull : ¬ t.console.head + 1 = t.console.tail :=
    fun hfull => hroom (Console.full_iff.mp hfull)
  simp only [consoleRxEnqueueChar, if_neg hfull, if_true]
  refine (echoDataChar_screen ?_ ch).trans rfl
  split_ifs <;> exact hecho

/-- A delete character takes the last byte and sends a backspace. -/
theorem feed_delete (hcan : u.console.canonical = true)
    (hcontents : u.console.contents = xs ++ [ch]) (hch : editable ch = true)
    (hecho : u.console.lflag &&& ttyLflagEcho ≠ 0) :
    (consoleRxFeed ttyCcVeraseDel u).console.contents = xs ∧
      (consoleRxFeed ttyCcVeraseDel u).screen = 0x08 :: u.screen := by
  have hintr : ¬ (ttyCcVeraseDel = ttyCcVintr ∧ u.console.lflag &&& ttyLflagIsig ≠ 0) :=
    fun h => absurd h.1 (by decide)
  have hkill : ¬ (u.console.canonical = true ∧ ttyCcVeraseDel = ttyCcVkill) :=
    fun h => absurd h.2 (by decide)
  have hnorm : (if ttyCcVeraseDel = asciiCr then asciiLf else ttyCcVeraseDel) = ttyCcVeraseDel := by
    decide
  rw [consoleRxFeed, hnorm, if_neg hintr, if_neg hkill, if_pos ⟨hcan, .inr rfl⟩]
  rcases popLastEditable_cases u.console with ⟨-, hself⟩ | ⟨c, b, -, hpop, hview⟩
  · rw [hcontents, List.rdropWhile_concat_pos _ _ _ hch] at hself
    have hle := (List.rdropWhile_prefix editable xs).length_le
    rw [hself, List.length_append, List.length_singleton] at hle
    omega
  · have hback : u.console.contents = c.contents ++ [b] := congrArg ConsoleView.contents hview
    have hlflag : u.console.lflag = c.lflag := congrArg ConsoleView.lflag hview
    have hsend : consoleEchoBackspace { u with console := c } =
        consoleFbPutc 0x08 { u with console := c } := by
      rw [consoleEchoBackspace, if_neg]
      rwa [← hlflag]
    rw [hpop]
    dsimp only
    rw [hsend]
    exact ⟨(List.append_inj_left' (hcontents.symm.trans hback) rfl).symm, rfl⟩

/-- What a byte and a delete character leave in the ring, and what they print. -/
theorem feed_erase (hecho : t.console.lflag &&& ttyLflagEcho ≠ 0)
    (hcan : t.console.canonical = true) (h : StoresEditable t ch) :
    (consoleRxFeed ttyCcVeraseDel (consoleRxFeed ch t)).console.contents = t.console.contents ∧
      (consoleRxFeed ttyCcVeraseDel (consoleRxFeed ch t)).screen =
        0x08 :: if Echoed ch then ch :: t.screen else t.screen := by
  obtain ⟨hfeed, hch, -, hroom⟩ := h.feed_eq
  have hview := enqueueChar_view ch true t
  rw [ConsoleView.push, if_neg (show ¬ t.console.view.contents.length = 255 from hroom)] at hview
  have hlflag : (consoleRxEnqueueChar ch true t).console.lflag = t.console.lflag :=
    congrArg ConsoleView.lflag hview
  rw [hfeed, ← enqueueChar_screen hecho hroom ch]
  refine feed_delete ?_ (congrArg ConsoleView.contents hview) hch ?_
  · rwa [Console.canonical, hlflag]
  · rwa [hlflag]

theorem typed_erase (hecho : t.console.lflag &&& ttyLflagEcho ≠ 0)
    (hcan : t.console.canonical = true) (h : StoresEditable t ch) :
    (typed [ch, ttyCcVeraseDel] t).console.contents = t.console.contents ∧
      (typed [ch, ttyCcVeraseDel] t).printed =
        if Echoed ch then [ch.setWidth 32, 0x08] else [0x08] := by
  have hstored : StoresEditable { t with screen := [] } ch := by
    obtain ⟨b, hb, hcontents⟩ := h
    have hview := congrArg ConsoleView.contents (feed_view ch { t with screen := [] })
    have hview' := congrArg ConsoleView.contents (feed_view ch t)
    exact ⟨b, hb, hview.trans (hview'.symm.trans hcontents)⟩
  obtain ⟨hring, hscreen⟩ := feed_erase (t := { t with screen := [] }) hecho hcan hstored
  refine ⟨hring, ?_⟩
  rw [Tty.printed, typed, List.foldl_cons, List.foldl_cons, List.foldl_nil, hscreen]
  split_ifs <;> rfl

end Ring

/-! ## The screen -/

/-- A cell as its pixels. -/
abbrev Pixels := ℕ → ℕ → BitVec 32

def pixelFace (fg bg : BitVec 32) : Face Pixels where
  fg := fg
  bg := bg
  blank _ _ := bg
  glyph c y x := if inked c y x then fg else bg
  draw := id
  draw_blank _ _ := rfl
  draw_glyph _ _ _ := rfl

/-- Whatever the pixels are, a state with the cursor on the screen shows a terminal. -/
theorem exists_shows {s : ConsoleFb} (hx : 0 ≤ s.cursorX ∧ s.cursorX < consoleCols)
    (hy : 0 ≤ s.cursorY ∧ s.cursorY < consoleRows) :
    ∃ t : Screen Pixels, Shows (pixelFace s.fg s.bg) s t := by
  refine ⟨⟨fun r c y x => s.pixelAt (r.val * cellH + y) (c.val * cellW + x),
    ⟨s.cursorX.toNat, by omega⟩, ⟨s.cursorY.toNat, by omega⟩⟩, rfl, rfl, ?_, ?_, ?_⟩
  · exact (Int.toNat_of_nonneg hx.1).symm
  · exact (Int.toNat_of_nonneg hy.1).symm
  · intro r c y x _ _
    rfl

section Screen

variable {α : Type} {face : Face α} {t : Screen α} {ch : BitVec 8}

/-- What a byte and its erasure do to the terminal. -/
def Screen.typeErase (face : Face α) (ch : BitVec 8) (t : Screen α) : Screen α :=
  t.putcs face (if Echoed ch then [ch.setWidth 32, 0x08] else [0x08])

/-- One cell on and back. -/
def Printable (ch : BitVec 8) : Prop := 0x20 ≤ ch ∧ ch ≤ 0x7E

instance (ch : BitVec 8) : Decidable (Printable ch) := inferInstanceAs (Decidable (_ ∧ _))

theorem putc_backspace : t.putc face 0x08 = t.backspace face.blank := rfl

theorem putc_printable (h : Printable ch) :
    t.putc face (ch.setWidth 32) = t.write face.blank (face.glyph (ch.setWidth 32)) := by
  have hne : ∀ c : BitVec 32, c.toNat < 0x20 → ch.setWidth 32 ≠ c := by
    rintro c hc rfl
    have hlo : 0x20 ≤ ch.toNat := h.1
    rw [BitVec.toNat_setWidth, Nat.mod_eq_of_lt (Nat.lt_of_lt_of_le ch.isLt (by decide))] at hc
    omega
  unfold Screen.putc
  rw [if_neg (hne _ (by decide)), if_neg (not_or.mpr ⟨hne _ (by decide), hne _ (by decide)⟩),
    if_neg (hne _ (by decide)), if_neg (hne _ (by decide)), if_neg (hne _ (by decide)),
    if_neg (hne _ (by decide)), if_neg (hne _ (by decide))]

theorem typeErase_echoed (h : Echoed ch) :
    t.typeErase face ch = (t.putc face (ch.setWidth 32)).backspace face.blank := by
  rw [Screen.typeErase, if_pos h]
  simp only [Screen.putcs, List.foldl_cons, List.foldl_nil, putc_backspace]

/-- Writing a cell and going back leaves the cursor, and changes no cell before it. -/
theorem typeErase_printable (face : Face α) (hy : t.y.val + 1 < consoleRows) (h : Printable ch) :
    (t.typeErase face ch).position = t.position ∧
      Terminal.SameBefore t.position t (t.typeErase face ch) := by
  have hlt : t.position + 1 < consoleRows * consoleCols := by
    have hroom : t.position + 80 < 60 * 80 := Terminal.position_add_lt hy
    change t.position + 1 < 60 * 80
    omega
  have hecho : Echoed ch := .inr (.inr (.inr (.inr (.inr (.inr h)))))
  obtain ⟨hpos, hsame⟩ := Terminal.write_of_lt (n := t.position) face.blank
    (face.glyph (ch.setWidth 32)) hlt
  rw [typeErase_echoed hecho, putc_printable h]
  refine ⟨?_, (hsame le_rfl).trans (Terminal.sameBefore_backspace ?_)⟩
  · rw [Terminal.position_backspace, hpos, Nat.add_sub_cancel]
  · rw [hpos, Nat.add_sub_cancel]

theorem typeErase_tab (hy : t.y.val + 1 < consoleRows) :
    (t.typeErase face 0x09).position = t.position + 3 := by
  have hlt : t.position + 4 < consoleRows * consoleCols := by
    have hroom : t.position + 80 < 60 * 80 := Terminal.position_add_lt hy
    change t.position + 4 < 60 * 80
    omega
  have hputc : t.putc face 0x09 = (Terminal.write face.blank (face.glyph 0x20))^[4] t := rfl
  rw [typeErase_echoed (by decide), show (0x09 : BitVec 8).setWidth 32 = 0x09 from rfl, hputc,
    Terminal.position_backspace, Terminal.position_iterate_write hlt]
  omega

theorem typeErase_verticalTab (face : Face α) (hy : t.y.val + 1 < consoleRows) :
    (t.typeErase face 0x0B).position = (t.y.val + 1) * consoleCols - 1 ∧
      Terminal.SameBefore t.position t (t.typeErase face 0x0B) := by
  have hrun : t.typeErase face 0x0B = (t.newline face.blank).backspace face.blank :=
    typeErase_echoed (by decide)
  obtain ⟨hpos, hcells⟩ := Terminal.newline_of_lt face.blank hy
  have hle : t.position ≤ (t.y.val + 1) * consoleCols - 1 := by
    have hx := t.x.isLt
    rw [Terminal.position, Terminal.index, Nat.succ_mul]
    omega
  rw [hrun]
  constructor
  · rw [Terminal.position_backspace, hpos]
  · have hnewline : Terminal.SameBefore t.position t (t.newline face.blank) := by
      intro r c _
      rw [hcells]
    refine hnewline.trans (Terminal.sameBefore_backspace ?_)
    rw [hpos]
    exact hle

theorem typeErase_formFeed : (t.typeErase face 0x0C).position = 0 := by
  have hrun : t.typeErase face 0x0C = (t.clear face.blank).backspace face.blank :=
    typeErase_echoed (by decide)
  rw [hrun, Terminal.position_backspace, Terminal.position_clear]

/-- A byte that prints nothing is erased with the cell before the cursor. -/
theorem typeErase_other (h : ¬ Echoed ch ∨ ch = 0x07) :
    (t.typeErase face ch).position = t.position - 1 := by
  have hrun : t.typeErase face ch = t.backspace face.blank := by
    obtain h | rfl := h
    · rw [Screen.typeErase, if_neg h]
      rfl
    · exact typeErase_echoed (by decide)
  rw [hrun, Terminal.position_backspace]

/-- The bytes and places for which a byte takes one cell, or there is no cell to take back. -/
def TakesOneCell (ch : BitVec 8) (x y : ℤ) : Prop :=
  Printable ch ∨ (ch = 0x0B ∧ x = consoleCols - 1) ∨ (ch ≠ 0x09 ∧ ch ≠ 0x0B ∧ x = 0 ∧ y = 0)

theorem position_eq_zero_iff :
    t.position = 0 ↔ (t.x.val : ℤ) = 0 ∧ (t.y.val : ℤ) = 0 := by
  have hpos : t.position = t.y.val * 80 + t.x.val := rfl
  rw [hpos]
  omega

/-- A byte that does not print, on the first cell. -/
theorem takesOneCell_iff (hp : ¬ Printable ch) (htab : ch ≠ 0x09) (hvt : ch ≠ 0x0B) :
    TakesOneCell ch t.x.val t.y.val ↔ t.position = 0 := by
  rw [position_eq_zero_iff]
  unfold TakesOneCell
  simp only [hp, htab, hvt, ne_eq, not_false_iff, true_and, false_and, false_or]

theorem typeErase_iff (face : Face α) (hy : t.y.val + 1 < consoleRows) (hlf : ch ≠ asciiLf)
    (hcr : ch ≠ asciiCr) :
    ((t.typeErase face ch).position = t.position ↔ TakesOneCell ch t.x.val t.y.val) ∧
      (TakesOneCell ch t.x.val t.y.val →
        Terminal.SameBefore t.position t (t.typeErase face ch)) := by
  have hnone : t.position = 0 → Terminal.SameBefore t.position t (t.typeErase face ch) := by
    intro h0 r c hrc
    rw [h0] at hrc
    omega
  by_cases hp : Printable ch
  · obtain ⟨hpos, hsame⟩ := typeErase_printable face hy hp
    exact ⟨⟨fun _ => .inl hp, fun _ => hpos⟩, fun _ => hsame⟩
  by_cases htab : ch = 0x09
  · have hnot : ¬ TakesOneCell ch t.x.val t.y.val := by
      rintro (h | ⟨h, -⟩ | ⟨h, -⟩)
      · exact hp h
      · rw [htab] at h
        exact absurd h (by decide)
      · exact h htab
    rw [htab, typeErase_tab hy, ← htab]
    exact ⟨⟨fun h => absurd h (by omega), fun h => absurd h hnot⟩, fun h => absurd h hnot⟩
  by_cases hvt : ch = 0x0B
  · have hiff : TakesOneCell ch t.x.val t.y.val ↔ (t.x.val : ℤ) = consoleCols - 1 := by
      constructor
      · rintro (h | ⟨-, h⟩ | ⟨-, h, -⟩)
        · exact absurd h hp
        · exact h
        · exact absurd hvt h
      · intro h
        exact .inr (.inl ⟨hvt, h⟩)
    obtain ⟨hpos, hsame⟩ := typeErase_verticalTab face hy
    rw [hiff]
    rw [← hvt] at hpos hsame
    refine ⟨?_, fun _ => hsame⟩
    rw [hpos]
    change (t.y.val + 1) * 80 - 1 = t.y.val * 80 + t.x.val ↔ (t.x.val : ℤ) = 80 - 1
    omega
  rw [takesOneCell_iff hp htab hvt]
  refine ⟨?_, hnone⟩
  by_cases hff : ch = 0x0C
  · rw [hff, typeErase_formFeed]
    exact eq_comm
  · have hother : ¬ Echoed ch ∨ ch = 0x07 := by
      by_cases hbell : ch = 0x07
      · exact .inr hbell
      · refine .inl ?_
        rintro (h | h | h | h | h | h | h)
        · exact hbell h
        · exact hlf h
        · exact hcr h
        · exact htab h
        · exact hvt h
        · exact hff h
        · exact hp h
    rw [typeErase_other hother]
    omega

end Screen

/-! ## The property -/

/-- A byte and its erasure leave the ring, the cursor and every cell before it as they
were. -/
structure EraseUndoes (t : Tty) (s : ConsoleFb) (ch : BitVec 8) : Prop where
  ring : (typed [ch, ttyCcVeraseDel] t).console.contents = t.console.contents
  screen : ∃ u, consoleFbPutcs (typed [ch, ttyCcVeraseDel] t).printed s = .ok ((), u) ∧
    (u.cursorX = s.cursorX ∧ u.cursorY = s.cursorY) ∧
    ∀ (r : Fin consoleRows) (c : Fin consoleCols),
      (r.val : ℤ) * consoleCols + c.val < s.cursorY * consoleCols + s.cursorX →
      ∀ y x, y < cellH → x < cellW →
        u.pixelAt (r.val * cellH + y) (c.val * cellW + x) =
          s.pixelAt (r.val * cellH + y) (c.val * cellW + x)

section Property

variable {t : Tty} {s : ConsoleFb} {ch : BitVec 8}

/-- The screen after a byte and its erasure, as a terminal. -/
theorem printed_shows {face : Face Pixels} {v : Screen Pixels}
    (hecho : t.console.lflag &&& ttyLflagEcho ≠ 0) (hcan : t.console.canonical = true)
    (hstored : StoresEditable t ch) (hs : Shows face s v) :
    ∃ u, consoleFbPutcs (typed [ch, ttyCcVeraseDel] t).printed s = .ok ((), u) ∧
      Shows face u (v.typeErase face ch) := by
  rw [(typed_erase hecho hcan hstored).2]
  exact putcs_shows face _ s v hs

theorem EraseUndoes.position {face : Face Pixels} {v : Screen Pixels} (h : EraseUndoes t s ch)
    (hecho : t.console.lflag &&& ttyLflagEcho ≠ 0) (hcan : t.console.canonical = true)
    (hstored : StoresEditable t ch) (hv : Shows face s v) :
    (v.typeErase face ch).position = v.position := by
  obtain ⟨-, u, hrun, ⟨hux, huy⟩, -⟩ := h
  obtain ⟨u', hrun', hu⟩ := printed_shows hecho hcan hstored hv
  rw [hrun] at hrun'
  obtain rfl := (Prod.mk.inj (Except.ok.inj hrun')).2
  rw [hu.cursorX, hv.cursorX] at hux
  rw [hu.cursorY, hv.cursorY] at huy
  exact Terminal.cursor_eq_iff.mp ⟨Fin.ext (Int.ofNat.inj hux), Fin.ext (Int.ofNat.inj huy)⟩

/-- Erasing undoes echoing exactly if the byte is printable, or is a vertical tab at the end
of a row, or comes when the cursor is on the first cell and is not a tab. -/
theorem erase_undoes_echo_iff (hecho : t.console.lflag &&& ttyLflagEcho ≠ 0)
    (hcan : t.console.canonical = true) (hstored : StoresEditable t ch)
    (hx : 0 ≤ s.cursorX ∧ s.cursorX < consoleCols)
    (hy : 0 ≤ s.cursorY ∧ s.cursorY < consoleRows - 1) :
    EraseUndoes t s ch ↔ TakesOneCell ch s.cursorX s.cursorY := by
  obtain ⟨v, hv⟩ := exists_shows hx ⟨hy.1, by omega⟩
  obtain ⟨-, hch, hcr, -⟩ := hstored.feed_eq
  have hrow : v.y.val + 1 < consoleRows := by
    have := hv.cursorY
    omega
  obtain ⟨hiff, hsame⟩ :=
    typeErase_iff (pixelFace s.fg s.bg) hrow (ne_of_editable hch).2 hcr
  rw [← hv.cursorX, ← hv.cursorY] at hiff hsame
  constructor
  · intro h
    exact hiff.mp (h.position hecho hcan hstored hv)
  · intro htakes
    obtain ⟨u, hrun, hu⟩ := printed_shows hecho hcan hstored hv
    obtain ⟨hux, huy⟩ := Terminal.cursor_eq_iff.mpr (hiff.mpr htakes)
    refine ⟨(typed_erase hecho hcan hstored).1, u, hrun, ⟨?_, ?_⟩, ?_⟩
    · rw [hu.cursorX, hv.cursorX, hux]
    · rw [hu.cursorY, hv.cursorY, huy]
    · intro r c hbefore y x hy' hx'
      have hindex : Terminal.index r c < v.position := by
        rw [hv.cursorX, hv.cursorY] at hbefore
        exact_mod_cast hbefore
      rw [hu.cells r c y x hy' hx', hv.cells r c y x hy' hx', hsame htakes r c hindex]

/-- A blank screen with the cursor behind two characters of the first row. -/
def promptScreen : ConsoleFb := ⟨2, 0, fgDefault, bgDefault, fun _ => bgDefault⟩

theorem init_stores (hch : editable ch = true)
    (hfeed : consoleRxFeed ch (consoleInit .zero) =
      consoleRxEnqueueChar ch true (consoleInit .zero)) :
    StoresEditable (consoleInit .zero) ch := by
  have hview := enqueueChar_view ch true (consoleInit .zero)
  refine ⟨ch, hch, ?_⟩
  rw [hfeed]
  exact congrArg ConsoleView.contents hview

theorem erase_undoes_echo_letter : EraseUndoes (consoleInit .zero) promptScreen 0x61 :=
  (erase_undoes_echo_iff (by decide) (by decide) (init_stores (by decide) rfl) (by decide)
    (by decide)).mpr (.inl (by decide))

/-- Erasing a control character that was not echoed takes the character before it from the
screen. -/
theorem erase_control_moves_cursor :
    (consoleInit .zero).console.lflag &&& ttyLflagEcho ≠ 0 ∧
      (consoleInit .zero).console.canonical = true ∧
      StoresEditable (consoleInit .zero) 0x01 ∧ promptScreen.cursorY = 0 ∧
      ¬ EraseUndoes (consoleInit .zero) promptScreen 0x01 := by
  have hstored : StoresEditable (consoleInit .zero) 0x01 := init_stores (by decide) rfl
  refine ⟨by decide, by decide, hstored, rfl, fun h => ?_⟩
  obtain ⟨v, hv⟩ := exists_shows (s := promptScreen) (by decide) (by decide)
  have hpos := h.position (by decide) (by decide) hstored hv
  have hx : (2 : ℤ) = v.x.val := hv.cursorX
  have hge : v.x.val ≤ v.position := Nat.le_add_left _ _
  rw [typeErase_other (.inl (by decide))] at hpos
  omega

end Property

end LampVm
