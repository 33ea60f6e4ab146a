import LampVm.Contract
import LampVm.Machine

/-!
# The framebuffer console

`kernel/src/console_fb.c`: a cursor over 80 by 60 cells of 8 by 8 pixels. A cell is painted
pixel by pixel, and scrolling copies the pixels of every row to the row one cell above in
the same memory. A store outside the 640 by 480 pixels and a load outside the glyph table
are errors, so a run that returns has made none of them.
-/
namespace LampVm

open Contract

abbrev cellW : ℕ := 8
abbrev cellH : ℕ := 8
abbrev consoleCols : ℕ := fbWidth / cellW
abbrev consoleRows : ℕ := fbHeight / cellH

abbrev asciiMin : ℤ := 32
abbrev asciiMax : ℤ := 126
abbrev fontPixels : ℕ := 64
abbrev fontGlyphs : ℕ := 95
abbrev fgDefault : BitVec 32 := 0x00FFFFFF
abbrev bgDefault : BitVec 32 := 0

/-- The variables of the console and the words of the video memory. -/
structure ConsoleFb where
  cursorX : ℤ
  cursorY : ℤ
  fg : BitVec 32
  bg : BitVec 32
  fb : ℕ → BitVec 32

inductive FbFault
  | pixel (index : ℤ)
  | font (index : ℤ)
  deriving DecidableEq, Repr

abbrev FbM := StateT ConsoleFb (Except FbFault)

/-- `console_font_8x8_data.inc`, one word for the 64 entries of a glyph, the first entry in
bit 0. -/
def glyphBits : List (BitVec 64) :=
  [0x0000000000000000, 0x00180018183C3C18, 0x0000000000243636, 0x0036367F367F3636,
   0x00183E603C067C18, 0x0063660C18336300, 0x006E333B6E1C361C, 0x0000000000060C0C,
   0x0030180C0C0C1830, 0x000C18303030180C, 0x0000663CFF3C6600, 0x000018187E181800,
   0x0C18180000000000, 0x000000007E000000, 0x0018180000000000, 0x000103060C183060,
   0x003E63676B73633E, 0x007E181818181C18, 0x007F030E3870633E, 0x003E63603C60633E,
   0x0078307F33363C38, 0x003E6360603F037F, 0x003E63633F03063C, 0x000C0C0C1830637F,
   0x003E63633E63633E, 0x001E30607E63633E, 0x0018180000181800, 0x0C18180000181800,
   0x0070180C060C1870, 0x00007E00007E0000, 0x000E18306030180E, 0x001800181830633E,
   0x001E037B7B7B633E, 0x0063637F6363361C, 0x003F66663E66663F, 0x003C66030303663C,
   0x001F36666666361F, 0x007F46161E16467F, 0x000F06161E16467F, 0x007C66730303663C,
   0x006363637F636363, 0x007E18181818187E, 0x001E333330303078, 0x006766361E366667,
   0x007F66460606060F, 0x0063636B7F7F7763, 0x006363737B6F6763, 0x003E63636363633E,
   0x000F06063E66663F, 0x005E336B6363633E, 0x006766363E66663F, 0x003E63301C06633E,
   0x003C1818185A7E7E, 0x003E636363636363, 0x001C366363636363, 0x0063777F6B636363,
   0x006363361C366363, 0x003C18183C666666, 0x007F664C1831637F, 0x003C0C0C0C0C0C3C,
   0x00406030180C0603, 0x003C30303030303C, 0x0000000063361C08, 0xFF00000000000000,
   0x000000000030180C, 0x007E637E603E0000, 0x003B6666663E0607, 0x003E6303633E0000,
   0x006E3333333E3038, 0x003E037F633E0000, 0x000F06061F06663C, 0x1F303E33336E0000,
   0x006766666E360607, 0x003C1818181C0018, 0x3C66666060600060, 0x0067361E36660607,
   0x003C18181818181C, 0x00636B6B7F370000, 0x00666666663B0000, 0x003E6363633E0000,
   0x0F063E66663B0000, 0x78303E33336E0000, 0x000F06666E3B0000, 0x003F603E037E0000,
   0x00386C0C0C3F0C0C, 0x006E333333330000, 0x001C366363630000, 0x00367F6B6B630000,
   0x0063361C36630000, 0x3F607E6363630000, 0x007F4C18327F0000, 0x007018180E181870,
   0x0018181800181818, 0x000E18306030180E, 0x0000000000003B6E]

/-- Entry `i` of `g_font`. -/
def gFont (i : ℕ) : Bool := (glyphBits.getD (i / fontPixels) 0).getLsbD (i % fontPixels)

def fontEntry (i : ℤ) : FbM Bool :=
  if 0 ≤ i ∧ i < fontGlyphs * fontPixels then pure (gFont i.toNat) else throw (.font i)

def loadPixel (i : ℤ) : FbM (BitVec 32) := do
  let s ← get
  if 0 ≤ i ∧ i < fbWidth * fbHeight then pure (s.fb i.toNat) else throw (.pixel i)

def storePixel (i : ℤ) (v : BitVec 32) : FbM Unit :=
  if 0 ≤ i ∧ i < fbWidth * fbHeight then
    modify fun s => { s with fb := Function.update s.fb i.toNat v }
  else throw (.pixel i)

/-- The two loops with which every function of the file goes over a rectangle of pixels, from
the top left one on. -/
def sweep (h w : ℕ) (row col : ℤ) (value : ℕ → ℕ → FbM (BitVec 32)) : FbM Unit :=
  (List.range h).forM fun y => (List.range w).forM fun x => do
    let v ← value y x
    storePixel ((row + y) * fbWidth + (col + x)) v

namespace ConsoleFb

def clearCell (cx cy : ℤ) : FbM Unit :=
  sweep cellH cellW (cy * cellH) (cx * cellW) fun _ _ => do
    let s ← get
    pure s.bg

def drawBox (cx cy : ℤ) : FbM Unit :=
  sweep cellH cellW (cy * cellH) (cx * cellW) fun y x => do
    let s ← get
    pure (if y = 0 ∨ y = cellH - 1 ∨ x = 0 ∨ x = cellW - 1 then s.fg else s.bg)

def drawChar (ch cx cy : ℤ) : FbM Unit :=
  if ch < asciiMin ∨ ch > asciiMax then drawBox cx cy
  else
    sweep cellH cellW (cy * cellH) (cx * cellW) fun row col => do
      let v ← fontEntry ((ch - asciiMin) * fontPixels + row * cellW + col)
      let s ← get
      pure (if v then s.fg else s.bg)

def scrollOneLine : FbM Unit := do
  sweep (fbHeight - cellH) fbWidth 0 0 fun y x => loadPixel ((y + cellH) * fbWidth + x)
  sweep cellH fbWidth (fbHeight - cellH : ℕ) 0 fun _ _ => do
    let s ← get
    pure s.bg

def newline : FbM Unit := do
  modify fun s => { s with cursorX := 0, cursorY := s.cursorY + 1 }
  let s ← get
  if s.cursorY ≥ consoleRows then
    scrollOneLine
    modify fun s => { s with cursorY := consoleRows - 1 }

/-- `console_fb_clear`. -/
def clear : FbM Unit := do
  sweep fbHeight fbWidth 0 0 fun _ _ => do
    let s ← get
    pure s.bg
  modify fun s => { s with cursorX := 0, cursorY := 0 }

/-- `console_fb_init`. -/
def init : FbM Unit := do
  modify fun s => { s with fg := fgDefault, bg := bgDefault, cursorX := 0, cursorY := 0 }
  clear

def backspace : FbM Unit := do
  let s ← get
  if s.cursorX > 0 then
    set { s with cursorX := s.cursorX - 1 }
    clearCell (s.cursorX - 1) s.cursorY
  else if s.cursorY > 0 then
    set { s with cursorY := s.cursorY - 1, cursorX := consoleCols - 1 }
    clearCell (consoleCols - 1) (s.cursorY - 1)

def paint (c : BitVec 32) (cx cy : ℤ) : FbM Unit :=
  if c = 0 then clearCell cx cy else drawChar c.toInt cx cy

/-- The end of `console_fb_putc`, which is reached for a value that is not a control
character. -/
def putGlyph (c : BitVec 32) : FbM Unit := do
  let s ← get
  paint c s.cursorX s.cursorY
  modify fun s => { s with cursorX := s.cursorX + 1 }
  let s ← get
  if s.cursorX ≥ consoleCols then newline

/-- `console_fb_putc`. The calls that it makes of itself for a tab are calls with a space. -/
def putc (c : BitVec 32) : FbM Unit :=
  if c = 0x07 then pure ()
  else if c = 0x0A then newline
  else if c = 0x0B then newline
  else if c = 0x0C then clear
  else if c = 0x08 then backspace
  else if c = 0x0D then modify fun s => { s with cursorX := 0 }
  else if c = 0x09 then (List.range 4).forM fun _ => putGlyph 0x20
  else putGlyph c

end ConsoleFb

/-! ## Sweeps -/

/-- A loop over the numbers below `n`. -/
theorem meets_range {σ ε : Type} {n : ℕ} {f : ℕ → StateT σ (Except ε) PUnit} {J : ℕ → σ → Prop}
    {E : ε → Prop} (h : ∀ i, i < n → Meets (J i) (f i) (fun _ => J (i + 1)) E) :
    Meets (J 0) ((List.range n).forM f) (fun _ => J n) E := by
  have hrun : Meets (J 0) ((List.range n).forM f) (fun _ => J (List.range n).length) E := by
    refine Meets.forM fun i x hi => ?_
    obtain ⟨hlt, rfl⟩ := List.getElem?_eq_some_iff.mp hi
    rw [List.getElem_range]
    exact h i (by simpa using hlt)
  rwa [List.length_range] at hrun

/-- The pixel in a row and a column of the screen. -/
def ConsoleFb.pixelAt (s : ConsoleFb) (row col : ℕ) : BitVec 32 := s.fb (row * fbWidth + col)

section Sweep

variable {s u : ConsoleFb} {row col h w y x R C : ℕ} {V : ℕ → ℕ → BitVec 32}

theorem pixel_index (hr : row < fbHeight) (hc : col < fbWidth) :
    (0 ≤ (row : ℤ) * fbWidth + col ∧ (row : ℤ) * fbWidth + col < fbWidth * fbHeight) ∧
      ((row : ℤ) * fbWidth + col).toNat = row * fbWidth + col := by
  have hw : fbWidth = 640 := rfl
  have hh : fbHeight = 480 := rfl
  simp only [hw, hh, Nat.cast_ofNat] at hr hc ⊢
  omega

theorem pixel_inj {R C : ℕ} (hc : col < fbWidth) (hC : C < fbWidth) :
    R * fbWidth + C = row * fbWidth + col ↔ R = row ∧ C = col := by
  have hw : fbWidth = 640 := rfl
  simp only [hw] at hc hC ⊢
  omega

theorem storePixel_ok (hr : row < fbHeight) (hc : col < fbWidth) (v : BitVec 32)
    (s : ConsoleFb) : ∃ u, storePixel ((row : ℤ) * fbWidth + col) v s = .ok ((), u) ∧
      u = { s with fb := u.fb } ∧ ∀ R C, C < fbWidth →
        u.pixelAt R C = if R = row ∧ C = col then v else s.pixelAt R C := by
  obtain ⟨hin, hindex⟩ := pixel_index hr hc
  refine ⟨_, by rw [storePixel, if_pos hin]; rfl, rfl, fun R C hC => ?_⟩
  simp only [ConsoleFb.pixelAt, hindex, Function.update_apply, pixel_inj hc hC]

theorem loadPixel_ok (hr : row < fbHeight) (hc : col < fbWidth) (s : ConsoleFb) :
    loadPixel ((row : ℤ) * fbWidth + col) s = .ok (s.pixelAt row col, s) := by
  obtain ⟨hin, hindex⟩ := pixel_index hr hc
  simp only [loadPixel, bind_apply, get_apply, if_pos hin, pure_apply, hindex,
    ConsoleFb.pixelAt]

/-- `u` is `s` after the sweep over a rectangle has come to row `y` and column `x` of it. -/
structure Swept (s : ConsoleFb) (row col w : ℕ) (V : ℕ → ℕ → BitVec 32) (y x : ℕ)
    (u : ConsoleFb) : Prop where
  rest : u = { s with fb := u.fb }
  pixel : ∀ R C, C < fbWidth → u.pixelAt R C =
    if row ≤ R ∧ col ≤ C ∧ C < col + w ∧ (R < row + y ∨ R = row + y ∧ C < col + x) then
      V (R - row) (C - col)
    else s.pixelAt R C

theorem Swept.zero (s : ConsoleFb) (row col w : ℕ) (V : ℕ → ℕ → BitVec 32) :
    Swept s row col w V 0 0 s := by
  refine ⟨rfl, fun R C _ => (if_neg ?_).symm⟩
  omega

/-- The end of a row is the beginning of the next one. -/
theorem Swept.row_end (hu : Swept s row col w V y w u) : Swept s row col w V (y + 1) 0 u := by
  refine ⟨hu.rest, fun R C hC => ?_⟩
  rw [hu.pixel R C hC]
  refine if_congr ?_ rfl rfl
  omega

theorem sweep_step {value : FbM (BitVec 32)} (hrow : row + y < fbHeight) (hcol : col + x < fbWidth)
    (hx : x < w) (hu : Swept s row col w V y x u) (hvalue : value u = .ok (V y x, u)) :
    ∃ t, (value >>= storePixel (((row : ℤ) + y) * fbWidth + ((col : ℤ) + x))) u = .ok ((), t) ∧
      Swept s row col w V y (x + 1) t := by
  obtain ⟨t, hstore, hrest, hpixel⟩ := storePixel_ok hrow hcol (V y x) u
  rw [Nat.cast_add, Nat.cast_add] at hstore
  refine ⟨t, ?_, ?_, fun R C hC => ?_⟩
  · rw [bind_ok hvalue]
    exact hstore
  · rw [hrest, hu.rest]
  · rw [hpixel R C hC, hu.pixel R C hC]
    by_cases hhere : R = row + y ∧ C = col + x
    · obtain ⟨rfl, rfl⟩ := hhere
      rw [if_pos ⟨rfl, rfl⟩, if_pos (by omega), Nat.add_sub_cancel_left, Nat.add_sub_cancel_left]
    · rw [if_neg hhere]
      refine if_congr ?_ rfl rfl
      omega

/-- A sweep in the screen returns, and stores in each pixel of the rectangle the value that
is computed there when the ones before it have been stored. -/
theorem sweep_spec {value : ℕ → ℕ → FbM (BitVec 32)} (hrow : row + h ≤ fbHeight)
    (hcol : col + w ≤ fbWidth)
    (hvalue : ∀ y x u, y < h → x < w → Swept s row col w V y x u →
      value y x u = .ok (V y x, u)) :
    ∃ u, sweep h w row col value s = .ok ((), u) ∧ u = { s with fb := u.fb } ∧
      ∀ R C, C < fbWidth → u.pixelAt R C =
        if (row ≤ R ∧ R < row + h) ∧ col ≤ C ∧ C < col + w then V (R - row) (C - col)
        else s.pixelAt R C := by
  have hloop : Meets (Swept s row col w V 0 0) (sweep h w row col value)
      (fun _ => Swept s row col w V h 0) fun _ => False := by
    refine meets_range (J := fun y => Swept s row col w V y 0) fun y hy => ?_
    have hinner := meets_range (n := w) (J := Swept s row col w V y) (E := fun _ : FbFault => False)
      (f := fun x => value y x >>= storePixel (((row : ℤ) + y) * fbWidth + ((col : ℤ) + x)))
      fun x hx u hu => by
        obtain ⟨t, hrun, ht⟩ := sweep_step (by omega) (by omega) hx hu (hvalue y x u hy hx hu)
        rw [hrun]
        exact ht
    exact hinner.weaken (fun _ hu => hu) (fun _ _ hu => hu.row_end) fun _ he => he
  obtain ⟨_, u, hrun, hu⟩ := hloop.returns (Swept.zero s row col w V)
  refine ⟨u, hrun, hu.rest, fun R C hC => ?_⟩
  rw [hu.pixel R C hC]
  refine if_congr ?_ rfl rfl
  omega

end Sweep

end LampVm
