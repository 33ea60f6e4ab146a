import LampVm.ConsoleFb
import LampVm.Terminal

/-!
# The framebuffer console is a terminal

A face says how cells look: what a blank cell is, what cell a character makes, and which
colour each pixel of a cell has. Whatever the face, every value that is sent to
`console_fb_putc` does on the pixels what it does on a terminal of 80 by 60 cells, and no
pixel is stored outside the screen.
-/
namespace LampVm

open Contract

/-- A terminal of the console's size. -/
abbrev Screen (α : Type) := Terminal consoleRows consoleCols α

/-- Whether a pixel of a character's cell has the foreground colour: the border of the cell
for a character without a glyph. -/
def inked (c : BitVec 32) (y x : ℕ) : Bool :=
  if c.toInt < asciiMin ∨ c.toInt > asciiMax then y = 0 ∨ y = cellH - 1 ∨ x = 0 ∨ x = cellW - 1
  else gFont ((c.toInt - asciiMin).toNat * fontPixels + y * cellW + x)

structure Face (α : Type) where
  fg : BitVec 32
  bg : BitVec 32
  blank : α
  glyph : BitVec 32 → α
  draw : α → ℕ → ℕ → BitVec 32
  draw_blank : ∀ y x, draw blank y x = bg
  draw_glyph : ∀ c y x, draw (glyph c) y x = if inked c y x then fg else bg

variable {α : Type}

def Screen.putc (face : Face α) (c : BitVec 32) (t : Screen α) : Screen α :=
  if c = 0x07 then t
  else if c = 0x0A ∨ c = 0x0B then t.newline face.blank
  else if c = 0x0C then t.clear face.blank
  else if c = 0x08 then t.backspace face.blank
  else if c = 0x0D then t.carriageReturn
  else if c = 0x09 then (Terminal.write face.blank (face.glyph 0x20))^[4] t
  else if c = 0 then t.write face.blank face.blank
  else t.write face.blank (face.glyph c)

/-- The pixels are those of the cells. -/
def CellsShown (face : Face α) (s : ConsoleFb) (cells : Fin consoleRows → Fin consoleCols → α) :
    Prop :=
  ∀ r c y x, y < cellH → x < cellW →
    s.pixelAt (r.val * cellH + y) (c.val * cellW + x) = face.draw (cells r c) y x

structure Shows (face : Face α) (s : ConsoleFb) (t : Screen α) : Prop where
  fg : s.fg = face.fg
  bg : s.bg = face.bg
  cursorX : s.cursorX = t.x.val
  cursorY : s.cursorY = t.y.val
  cells : CellsShown face s t.cells

/-- The program does on the pixels what `f` does on the terminal. -/
def Implements (face : Face α) (m : FbM Unit) (f : Screen α → Screen α) : Prop :=
  ∀ s t, Shows face s t → ∃ u, m s = .ok ((), u) ∧ Shows face u (f t)

section Rules

variable {face : Face α} {m n : FbM Unit} {f g : Screen α → Screen α}

theorem implements_pure : Implements face (pure ()) id :=
  fun s _ hs => ⟨s, rfl, hs⟩

theorem Implements.bind (hm : Implements face m f) (hn : Implements face n g) :
    Implements face (m >>= fun _ => n) (g ∘ f) := by
  intro s t hs
  obtain ⟨u, hrun, hu⟩ := hm s t hs
  rw [bind_ok hrun]
  exact hn u (f t) hu

theorem Implements.forM {β : Type} {p : β → FbM Unit} {e : β → Screen α → Screen α}
    (h : ∀ b, Implements face (p b) (e b)) (bs : List β) :
    Implements face (bs.forM p) fun t => bs.foldl (fun t b => e b t) t := by
  induction bs with
  | nil => exact implements_pure
  | cons b bs ih => exact (h b).bind ih

end Rules

/-! ## Cells -/

section Cells

variable {face : Face α} {s : ConsoleFb} {t : Screen α} {a : α}

/-- The last pixel of a cell is on the screen. -/
theorem cell_le (r : Fin consoleRows) (c : Fin consoleCols) :
    r.val * cellH + cellH ≤ fbHeight ∧ c.val * cellW + cellW ≤ fbWidth :=
  ⟨show r.val * 8 + 8 ≤ 480 by have : r.val < 60 := r.isLt; omega,
    show c.val * 8 + 8 ≤ 640 by have : c.val < 80 := c.isLt; omega⟩

theorem pixel_lt (r : Fin consoleRows) (c : Fin consoleCols) {y x : ℕ} (hy : y < cellH)
    (hx : x < cellW) : r.val * cellH + y < fbHeight ∧ c.val * cellW + x < fbWidth :=
  ⟨Nat.lt_of_lt_of_le (Nat.add_lt_add_left hy _) (cell_le r c).1,
    Nat.lt_of_lt_of_le (Nat.add_lt_add_left hx _) (cell_le r c).2⟩

/-- Rows and columns of pixels belong to one row or column of cells. -/
theorem mem_cell_iff {k l i : ℕ} (hi : i < 8) : k * 8 ≤ l * 8 + i ∧ l * 8 + i < k * 8 + 8 ↔ l = k := by
  omega

/-- A sweep over the cell under the cursor that stores the pixels of `a`. -/
theorem sweep_cell {value : ℕ → ℕ → FbM (BitVec 32)} (hs : Shows face s t)
    (hvalue : ∀ y x u, y < cellH → x < cellW → u = { s with fb := u.fb } →
      value y x u = .ok (face.draw a y x, u)) :
    ∃ u, sweep cellH cellW (s.cursorY * cellH) (s.cursorX * cellW) value s = .ok ((), u) ∧
      Shows face u (t.put a) := by
  obtain ⟨hrow, hcol⟩ := cell_le t.y t.x
  have hswept : ∀ y x u, y < cellH → x < cellW →
      Swept s (t.y.val * cellH) (t.x.val * cellW) cellW (face.draw a) y x u →
      value y x u = .ok (face.draw a y x, u) :=
    fun y x u hy hx hu => hvalue y x u hy hx hu.rest
  obtain ⟨u, hrun, hrest, hpixel⟩ := sweep_spec hrow hcol hswept
  rw [Nat.cast_mul, Nat.cast_mul, ← hs.cursorX, ← hs.cursorY] at hrun
  refine ⟨u, hrun, ?_, ?_, ?_, ?_, fun r c y x hy' hx' => ?_⟩
  · rw [hrest]
    exact hs.fg
  · rw [hrest]
    exact hs.bg
  · rw [hrest]
    exact hs.cursorX
  · rw [hrest]
    exact hs.cursorY
  · rw [hpixel _ _ (pixel_lt r c hy' hx').2, Terminal.put_cells]
    by_cases hcell : r = t.y ∧ c = t.x
    · obtain ⟨rfl, rfl⟩ := hcell
      rw [if_pos ⟨(mem_cell_iff hy').mpr rfl, (mem_cell_iff hx').mpr rfl⟩, if_pos ⟨rfl, rfl⟩,
        Nat.add_sub_cancel_left, Nat.add_sub_cancel_left]
    · rw [if_neg, if_neg hcell]
      · exact hs.cells r c y x hy' hx'
      · rintro ⟨hrow, hcol⟩
        exact hcell ⟨Fin.ext ((mem_cell_iff hy').mp hrow), Fin.ext ((mem_cell_iff hx').mp hcol)⟩

theorem clearCell_shows (hs : Shows face s t) :
    ∃ u, ConsoleFb.clearCell s.cursorX s.cursorY s = .ok ((), u) ∧
      Shows face u (t.put face.blank) := by
  refine sweep_cell hs fun y x u _ _ hu => ?_
  rw [bind_apply, get_apply]
  dsimp only
  rw [pure_apply, face.draw_blank, ← hs.bg, hu]

theorem drawBox_shows (hs : Shows face s t) {c : BitVec 32}
    (hc : c.toInt < asciiMin ∨ c.toInt > asciiMax) :
    ∃ u, ConsoleFb.drawBox s.cursorX s.cursorY s = .ok ((), u) ∧
      Shows face u (t.put (face.glyph c)) := by
  refine sweep_cell hs fun y x u _ _ hu => ?_
  rw [bind_apply, get_apply]
  dsimp only
  rw [pure_apply, face.draw_glyph, inked, if_pos hc, ← hs.bg, ← hs.fg, hu]
  simp only [decide_eq_true_eq]

theorem fontEntry_ok {ch : ℤ} {y x : ℕ} (hch : ¬ (ch < asciiMin ∨ ch > asciiMax)) (hy : y < cellH)
    (hx : x < cellW) (s : ConsoleFb) :
    fontEntry ((ch - asciiMin) * fontPixels + y * cellW + x) s =
      .ok (gFont ((ch - asciiMin).toNat * fontPixels + y * cellW + x), s) := by
  obtain ⟨hmin, hmax⟩ := not_or.mp hch
  have hin : 0 ≤ (ch - asciiMin) * fontPixels + y * cellW + x ∧
      (ch - asciiMin) * fontPixels + y * cellW + x < fontGlyphs * fontPixels := by
    change ¬ ch < 32 at hmin
    change ¬ ch > 126 at hmax
    change y < 8 at hy
    change x < 8 at hx
    change 0 ≤ (ch - 32) * 64 + y * 8 + x ∧ (ch - 32) * 64 + y * 8 + x < 6080
    omega
  have hindex : ((ch - asciiMin) * fontPixels + y * cellW + x).toNat =
      (ch - asciiMin).toNat * fontPixels + y * cellW + x := by
    change ¬ ch < 32 at hmin
    change ((ch - 32) * 64 + y * 8 + x).toNat = (ch - 32).toNat * 64 + y * 8 + x
    omega
  rw [fontEntry, if_pos hin, pure_apply, hindex]

theorem drawChar_shows (hs : Shows face s t) (c : BitVec 32) :
    ∃ u, ConsoleFb.drawChar c.toInt s.cursorX s.cursorY s = .ok ((), u) ∧
      Shows face u (t.put (face.glyph c)) := by
  unfold ConsoleFb.drawChar
  split_ifs with hc
  · exact drawBox_shows hs hc
  · refine sweep_cell hs fun y x u hy hx hu => ?_
    rw [bind_ok (fontEntry_ok hc hy hx u), bind_apply, get_apply]
    dsimp only
    rw [pure_apply, face.draw_glyph, inked, if_neg hc, ← hs.bg, ← hs.fg, hu]

end Cells

/-! ## Scrolling and clearing -/

/-- The part of the screen that keeps a row of cells when it scrolls. -/
abbrev keptRows : ℕ := fbHeight - cellH

theorem copyRows_spec (s : ConsoleFb) :
    ∃ u, sweep keptRows fbWidth 0 0 (fun y x => loadPixel ((y + cellH) * fbWidth + x)) s =
        .ok ((), u) ∧ u = { s with fb := u.fb } ∧ ∀ R C, C < fbWidth →
      u.pixelAt R C = if R < keptRows then s.pixelAt (R + cellH) C else s.pixelAt R C := by
  have hvalue : ∀ y x u, y < keptRows → x < fbWidth →
      Swept s 0 0 fbWidth (fun y x => s.pixelAt (y + cellH) x) y x u →
      loadPixel ((y + cellH) * fbWidth + x) u = .ok (s.pixelAt (y + cellH) x, u) := by
    -- The pixel one cell below has not been stored yet.
    intro y x u hy hx hu
    have hrow : y + cellH < fbHeight := by
      change y + 8 < 480
      change y < 472 at hy
      omega
    have hload := loadPixel_ok hrow hx u
    rw [Nat.cast_add] at hload
    rw [hload, hu.pixel _ _ hx, if_neg]
    change ¬ (0 ≤ y + 8 ∧ 0 ≤ x ∧ x < 0 + 640 ∧ (y + 8 < 0 + y ∨ y + 8 = 0 + y ∧ x < 0 + x))
    omega
  obtain ⟨u, hrun, hrest, hpixel⟩ := sweep_spec (by decide) (by decide) hvalue
  refine ⟨u, hrun, hrest, fun R C hC => ?_⟩
  rw [hpixel R C hC]
  refine if_congr ?_ rfl rfl
  omega

theorem fill_spec {s : ConsoleFb} {row h : ℕ} (hrow : row + h ≤ fbHeight) :
    ∃ u, sweep h fbWidth row 0 (fun _ _ => do let s ← get; pure s.bg) s = .ok ((), u) ∧
      u = { s with fb := u.fb } ∧ ∀ R C, C < fbWidth →
        u.pixelAt R C = if row ≤ R ∧ R < row + h then s.bg else s.pixelAt R C := by
  have hvalue : ∀ y x u, y < h → x < fbWidth → Swept s row 0 fbWidth (fun _ _ => s.bg) y x u →
      (do let s ← get; pure s.bg : FbM (BitVec 32)) u = .ok (s.bg, u) := by
    intro y x u _ _ hu
    rw [bind_apply, get_apply]
    dsimp only
    rw [pure_apply, hu.rest]
  obtain ⟨u, hrun, hrest, hpixel⟩ := sweep_spec hrow le_rfl hvalue
  refine ⟨u, hrun, hrest, fun R C hC => ?_⟩
  rw [hpixel R C hC]
  refine if_congr ?_ rfl rfl
  omega

theorem scrollOneLine_spec (s : ConsoleFb) :
    ∃ u, ConsoleFb.scrollOneLine s = .ok ((), u) ∧ u = { s with fb := u.fb } ∧
      ∀ R C, R < fbHeight → C < fbWidth →
        u.pixelAt R C = if R < keptRows then s.pixelAt (R + cellH) C else s.bg := by
  obtain ⟨u, hcopy, hu, hcopied⟩ := copyRows_spec s
  obtain ⟨v, hfill, hv, hfilled⟩ := fill_spec (s := u) (show keptRows + cellH ≤ fbHeight by decide)
  refine ⟨v, ?_, ?_, fun R C hR hC => ?_⟩
  · rw [ConsoleFb.scrollOneLine, bind_ok hcopy]
    exact hfill
  · rw [hv, hu]
  · rw [hfilled R C hC, hcopied R C hC]
    by_cases hkept : R < keptRows
    · rw [if_neg (by omega), if_pos hkept, if_pos hkept]
    · have hlast : keptRows ≤ R ∧ R < keptRows + cellH := ⟨Nat.not_lt.mp hkept, hR⟩
      rw [if_pos hlast, if_neg hkept, hu]

section Steps

variable {face : Face α} {s : ConsoleFb} {t : Screen α}

/-- The pixels after scrolling are those of the rows of cells one further down. -/
theorem scroll_cells (hs : Shows face s t) {r : Fin consoleRows} {c : Fin consoleCols} {y x : ℕ}
    (hy : y < cellH) (hx : x < cellW) :
    (if r.val * cellH + y < keptRows then s.pixelAt (r.val * cellH + y + cellH) (c.val * cellW + x)
      else s.bg) = face.draw ((t.scroll face.blank).cells r c) y x := by
  unfold Terminal.scroll
  dsimp only
  by_cases hr : r.val + 1 < consoleRows
  · have hkept : r.val * cellH + y < keptRows := by
      change r.val + 1 < 60 at hr
      change y < 8 at hy
      change r.val * 8 + y < 472
      omega
    have hbelow : r.val * cellH + y + cellH = (r.val + 1) * cellH + y := by
      rw [Nat.succ_mul, Nat.add_right_comm]
    rw [if_pos hkept, dif_pos hr, hbelow]
    exact hs.cells ⟨r.val + 1, hr⟩ c y x hy hx
  · have hkept : ¬ r.val * cellH + y < keptRows := by
      change ¬ r.val + 1 < 60 at hr
      change ¬ r.val * 8 + y < 472
      omega
    rw [if_neg hkept, dif_neg hr, face.draw_blank]
    exact hs.bg

theorem newline_cursorX (s : ConsoleFb) (k : ℤ) :
    ConsoleFb.newline { s with cursorX := k } = ConsoleFb.newline s := rfl

theorem newline_shows (hs : Shows face s t) :
    ∃ u, ConsoleFb.newline s = .ok ((), u) ∧ Shows face u (t.newline face.blank) := by
  have hy := hs.cursorY
  unfold Terminal.newline
  simp only [ConsoleFb.newline, bind_apply, modify_apply, get_apply]
  split_ifs with hlast hnext hnext
  · -- The cursor was not on the last row.
    have : t.y.val + 1 < 60 := hnext
    have : s.cursorY + 1 ≥ 60 := hlast
    omega
  · obtain ⟨u, hrun, hu, hpixel⟩ :=
      scrollOneLine_spec { s with cursorX := 0, cursorY := s.cursorY + 1 }
    rw [bind_ok hrun, modify_apply]
    refine ⟨_, rfl, ?_, ?_, ?_, ?_, fun r c y x hy' hx' => ?_⟩
    · rw [hu]
      exact hs.fg
    · rw [hu]
      exact hs.bg
    · rw [hu]
      rfl
    · have : ¬ t.y.val + 1 < 60 := hnext
      have : t.y.val < 60 := t.y.isLt
      change (60 : ℤ) - 1 = t.y.val
      omega
    · change u.pixelAt _ _ = _
      rw [hpixel _ _ (pixel_lt r c hy' hx').1 (pixel_lt r c hy' hx').2]
      have hcell := scroll_cells (r := r) (c := c) hs hy' hx'
      exact hcell
  · refine ⟨_, rfl, hs.fg, hs.bg, rfl, ?_, hs.cells⟩
    change s.cursorY + 1 = ((t.y.val + 1 : ℕ) : ℤ)
    rw [hy, Nat.cast_succ]
  · have : ¬ t.y.val + 1 < 60 := hnext
    have : ¬ s.cursorY + 1 ≥ 60 := hlast
    omega

theorem clear_shows (hfg : s.fg = face.fg) (hbg : s.bg = face.bg) (t : Screen α) :
    ∃ u, ConsoleFb.clear s = .ok ((), u) ∧ Shows face u (t.clear face.blank) := by
  obtain ⟨u, hrun, hu, hpixel⟩ := fill_spec (s := s) (show 0 + fbHeight ≤ fbHeight by decide)
  rw [Nat.cast_zero] at hrun
  refine ⟨_, by rw [ConsoleFb.clear, bind_ok hrun, modify_apply], ?_, ?_, rfl, rfl,
    fun r c y x hy hx => ?_⟩
  · rw [hu]
    exact hfg
  · rw [hu]
    exact hbg
  · obtain ⟨hrow, hcol⟩ := pixel_lt r c hy hx
    change u.pixelAt _ _ = face.draw face.blank y x
    rw [hpixel _ _ hcol, if_pos ⟨Nat.zero_le _, by rwa [Nat.zero_add]⟩, face.draw_blank, hbg]

/-- The cursor on the cell before, as `console_fb_putc` stores it for a backspace. -/
theorem Shows.retreat (hs : Shows face s t) :
    (0 < t.x.val → Shows face { s with cursorX := s.cursorX - 1 } t.retreat) ∧
    (¬ 0 < t.x.val → 0 < t.y.val →
      Shows face { s with cursorY := s.cursorY - 1, cursorX := consoleCols - 1 } t.retreat) := by
  constructor
  · intro hx
    have hcursor : s.cursorX - 1 = ((t.x.val - 1 : ℕ) : ℤ) := by
      rw [hs.cursorX]
      omega
    rw [Terminal.retreat, if_pos hx]
    exact ⟨hs.fg, hs.bg, hcursor, hs.cursorY, hs.cells⟩
  · intro hx hy
    have hcursor : s.cursorY - 1 = ((t.y.val - 1 : ℕ) : ℤ) := by
      rw [hs.cursorY]
      omega
    rw [Terminal.retreat, if_neg hx]
    exact ⟨hs.fg, hs.bg, rfl, hcursor, hs.cells⟩

theorem backspace_shows (hs : Shows face s t) :
    ∃ u, ConsoleFb.backspace s = .ok ((), u) ∧ Shows face u (t.backspace face.blank) := by
  have hx := hs.cursorX
  have hy := hs.cursorY
  simp only [ConsoleFb.backspace, Terminal.backspace, bind_apply, get_apply]
  by_cases hx0 : 0 < t.x.val
  · rw [if_pos (show s.cursorX > 0 by omega), if_pos (.inl hx0)]
    simp only [bind_apply, set_apply]
    have hclear := clearCell_shows (hs.retreat.1 hx0)
    exact hclear
  · rw [if_neg (show ¬ s.cursorX > 0 by omega)]
    by_cases hy0 : 0 < t.y.val
    · rw [if_pos (show s.cursorY > 0 by omega), if_pos (.inr hy0)]
      simp only [bind_apply, set_apply]
      have hclear := clearCell_shows (hs.retreat.2 hx0 hy0)
      exact hclear
    · rw [if_neg (show ¬ s.cursorY > 0 by omega), if_neg (not_or.mpr ⟨hx0, hy0⟩)]
      exact ⟨s, rfl, hs⟩

theorem paint_shows (hs : Shows face s t) (c : BitVec 32) :
    ∃ u, ConsoleFb.paint c s.cursorX s.cursorY s = .ok ((), u) ∧
      Shows face u (t.put (if c = 0 then face.blank else face.glyph c)) := by
  unfold ConsoleFb.paint
  split_ifs
  · exact clearCell_shows hs
  · exact drawChar_shows hs c

theorem putGlyph_shows (c : BitVec 32) :
    Implements face (ConsoleFb.putGlyph c)
      (Terminal.write face.blank (if c = 0 then face.blank else face.glyph c)) := by
  intro s t hs
  obtain ⟨u, hrun, hu⟩ := paint_shows hs c
  have hx := hu.cursorX
  simp only [ConsoleFb.putGlyph, bind_apply, get_apply, hrun, modify_apply]
  unfold Terminal.write
  generalize t.put (if c = 0 then face.blank else face.glyph c) = t at hu hx ⊢
  unfold Terminal.advance
  by_cases hend : t.x.val + 1 < consoleCols
  · have hlt : ¬ u.cursorX + 1 ≥ consoleCols := by
      change t.x.val + 1 < 80 at hend
      change ¬ u.cursorX + 1 ≥ 80
      omega
    rw [if_neg hlt, dif_pos hend]
    refine ⟨_, rfl, hu.fg, hu.bg, ?_, hu.cursorY, hu.cells⟩
    change u.cursorX + 1 = ((t.x.val + 1 : ℕ) : ℤ)
    rw [hx, Nat.cast_succ]
  · have hge : u.cursorX + 1 ≥ consoleCols := by
      change ¬ t.x.val + 1 < 80 at hend
      change u.cursorX + 1 ≥ 80
      omega
    rw [if_pos hge, dif_neg hend, newline_cursorX]
    exact newline_shows hu

/-- The step lemma: one value does to the screen what it does to the terminal. -/
theorem putc_shows (c : BitVec 32) : Implements face (ConsoleFb.putc c) (Screen.putc face c) := by
  intro s t hs
  unfold ConsoleFb.putc Screen.putc
  by_cases hbell : c = 0x07
  · rw [if_pos hbell, if_pos hbell]
    exact implements_pure s t hs
  rw [if_neg hbell, if_neg hbell]
  by_cases hlf : c = 0x0A
  · rw [if_pos hlf, if_pos (.inl hlf)]
    exact newline_shows hs
  rw [if_neg hlf]
  by_cases hvt : c = 0x0B
  · rw [if_pos hvt, if_pos (.inr hvt)]
    exact newline_shows hs
  rw [if_neg hvt, if_neg (not_or.mpr ⟨hlf, hvt⟩)]
  by_cases hff : c = 0x0C
  · rw [if_pos hff, if_pos hff]
    exact clear_shows hs.fg hs.bg t
  rw [if_neg hff, if_neg hff]
  by_cases hbs : c = 0x08
  · rw [if_pos hbs, if_pos hbs]
    exact backspace_shows hs
  rw [if_neg hbs, if_neg hbs]
  by_cases hcr : c = 0x0D
  · rw [if_pos hcr, if_pos hcr]
    exact ⟨_, rfl, hs.fg, hs.bg, rfl, hs.cursorY, hs.cells⟩
  rw [if_neg hcr, if_neg hcr]
  by_cases htab : c = 0x09
  · rw [if_pos htab, if_pos htab]
    have hspace : Implements face (ConsoleFb.putGlyph 0x20)
        (Terminal.write face.blank (face.glyph 0x20)) := putGlyph_shows 0x20
    obtain ⟨u, hrun, hu⟩ := Implements.forM (fun _ => hspace) (List.range 4) s t hs
    simp only [List.foldl_const, List.length_range] at hu
    exact ⟨u, hrun, hu⟩
  · rw [if_neg htab, if_neg htab]
    have hput := putGlyph_shows c s t hs
    split_ifs at hput ⊢
    · exact hput
    · exact hput

end Steps

/-! ## Whole outputs -/

/-- The values sent to the console one after the other. -/
def consoleFbPutcs (cs : List (BitVec 32)) : FbM Unit := cs.forM ConsoleFb.putc

def Screen.putcs (face : Face α) (cs : List (BitVec 32)) (t : Screen α) : Screen α :=
  cs.foldl (fun t c => t.putc face c) t

/-- The run lemma. -/
theorem putcs_shows (face : Face α) (cs : List (BitVec 32)) :
    Implements face (consoleFbPutcs cs) (Screen.putcs face cs) :=
  Implements.forM putc_shows cs

/-- What a cell shows. -/
inductive Cell
  | blank
  | char (c : BitVec 32)
  deriving DecidableEq, Repr

def Cell.draw (fg bg : BitVec 32) : Cell → ℕ → ℕ → BitVec 32
  | .blank, _, _ => bg
  | .char c, y, x => if inked c y x then fg else bg

def charFace (fg bg : BitVec 32) : Face Cell where
  fg := fg
  bg := bg
  blank := .blank
  glyph := .char
  draw := Cell.draw fg bg
  draw_blank _ _ := rfl
  draw_glyph _ _ _ := rfl

/-- The blank screen with the cursor on the first cell. -/
def blankScreen : Screen Cell where
  cells _ _ := .blank
  x := ⟨0, by decide⟩
  y := ⟨0, by decide⟩

theorem init_shows (s : ConsoleFb) : ∃ u, ConsoleFb.init s = .ok ((), u) ∧
    Shows (charFace fgDefault bgDefault) u blankScreen := by
  rw [ConsoleFb.init, bind_apply, modify_apply]
  exact clear_shows rfl rfl blankScreen

/-- After `console_fb_init` and any sequence of `console_fb_putc`, which return because they
store no pixel outside the screen, the cursor is on the screen and the pixels are those of
the terminal to which the same values were sent. -/
theorem console_fb_is_terminal (s : ConsoleFb) (cs : List (BitVec 32)) :
    ∃ u, (ConsoleFb.init >>= fun _ => consoleFbPutcs cs) s = .ok ((), u) ∧
      (0 ≤ u.cursorX ∧ u.cursorX < 80) ∧ (0 ≤ u.cursorY ∧ u.cursorY < 60) ∧
      Shows (charFace fgDefault bgDefault) u
        (blankScreen.putcs (charFace fgDefault bgDefault) cs) := by
  obtain ⟨u, hinit, hu⟩ := init_shows s
  obtain ⟨v, hrun, hv⟩ := putcs_shows (charFace fgDefault bgDefault) cs u blankScreen hu
  refine ⟨v, by rw [bind_ok hinit, hrun], ?_, ?_, hv⟩
  · rw [hv.cursorX]
    exact ⟨Int.natCast_nonneg _, Int.ofNat_lt.mpr (Fin.isLt _)⟩
  · rw [hv.cursorY]
    exact ⟨Int.natCast_nonneg _, Int.ofNat_lt.mpr (Fin.isLt _)⟩

end LampVm
