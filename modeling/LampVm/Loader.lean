import LampVm.Create
import LampVm.ByteString

/-!
# The program loader

`load_program_single` reads an image file: six header words, the text as 64-bit words
and the data as bytes. A file is the byte string it holds; reading returns the bytes
that are left, up to the number asked for. The buffers are read on a little-endian
host.
-/
namespace LampVm

open ByteString

/-! ## The code -/

/-- `fread` of single bytes: what was read, and what is left of the file. -/
def freadBytes (n : ℕ) (fp : List (BitVec 8)) : List (BitVec 8) × List (BitVec 8) :=
  (fp.take n, fp.drop n)

def readU32Le (bytes : List (BitVec 8)) : BitVec 32 :=
  (bytes.getD 0 0).setWidth 32 ||| (bytes.getD 1 0).setWidth 32 <<< 8 |||
    (bytes.getD 2 0).setWidth 32 <<< 16 ||| (bytes.getD 3 0).setWidth 32 <<< 24

/-- The variables behind the out parameters; `none` is the null pointer. -/
structure LoadOutputs where
  program : Option (List (BitVec 64))
  programSize : ℕ
  data : Option (List (BitVec 8))
  dataSize : ℕ
  layout : ProgramLayout
  deriving DecidableEq, Repr

def LoadOutputs.cleared : LoadOutputs := ⟨none, 0, none, 0, ⟨0, 0, 0, 0, 0, 0⟩⟩

abbrev headerSize : ℕ := 24

def headerLayout (header : List (BitVec 8)) : ProgramLayout where
  textBase := readU32Le (header.drop 0)
  textSize := readU32Le (header.drop 4)
  dataBase := readU32Le (header.drop 8)
  dataSize := readU32Le (header.drop 12)
  bssBase := readU32Le (header.drop 16)
  bssSize := readU32Le (header.drop 20)

/-- The text part of `load_program_single`: success, the outputs and the rest of the file. -/
def loadText (malloc : Bool) (out : LoadOutputs) (fp : List (BitVec 8)) :
    Bool × LoadOutputs × List (BitVec 8) :=
  let textBytes := out.layout.textSize.toNat
  if textBytes > 0 then
    if malloc then
      let (program, fp) := freadBytes textBytes fp
      if program.length ≠ textBytes then (false, out, fp)
      else
        (true, { out with
          program := some (leWords 64 8 (textBytes / 8) program)
          programSize := textBytes / 8 }, fp)
    else (false, out, fp)
  else (true, out, fp)

/-- The data part; its failures take the text back. -/
def loadDataSection (malloc : Bool) (out : LoadOutputs) (fp : List (BitVec 8)) :
    Bool × LoadOutputs :=
  let dataBytes := out.layout.dataSize.toNat
  if dataBytes > 0 then
    if malloc then
      let (data, _) := freadBytes dataBytes fp
      if data.length ≠ dataBytes then (false, { out with program := none, programSize := 0 })
      else (true, { out with data := some data, dataSize := dataBytes })
    else (false, { out with program := none, programSize := 0 })
  else (true, out)

/-- `load_program_single` on a file that could be opened or not, with the outcomes of
its two allocations. -/
def loadProgramSingle (mallocText mallocData : Bool) (file : Option (List (BitVec 8))) :
    Bool × LoadOutputs :=
  match file with
  | none => (false, .cleared)
  | some fp =>
    let (header, fp) := freadBytes headerSize fp
    if header.length ≠ headerSize then (false, .cleared)
    else
      let out := { LoadOutputs.cleared with layout := headerLayout header }
      if out.layout.textSize.toNat % 8 ≠ 0 then (false, out)
      else
        match loadText mallocText out fp with
        | (false, out, _) => (false, out)
        | (true, out, fp) => loadDataSection mallocData out fp

/-! ## The format -/

/-- Word `i` of the header. -/
def headerWord (bytes : List (BitVec 8)) (i : ℕ) : BitVec 32 :=
  BitVec.ofNat 32 (leValue ((bytes.drop (4 * i)).take 4))

def imageLayout (bytes : List (BitVec 8)) : ProgramLayout where
  textBase := headerWord bytes 0
  textSize := headerWord bytes 1
  dataBase := headerWord bytes 2
  dataSize := headerWord bytes 3
  bssBase := headerWord bytes 4
  bssSize := headerWord bytes 5

/-- A byte string with a complete header whose sections are all there. -/
structure IsImage (bytes : List (BitVec 8)) : Prop where
  header : 24 ≤ bytes.length
  aligned : (imageLayout bytes).textSize.toNat % 8 = 0
  sections : 24 + (imageLayout bytes).textSize.toNat + (imageLayout bytes).dataSize.toNat ≤
    bytes.length

def imageText (bytes : List (BitVec 8)) : List (BitVec 64) :=
  leWords 64 8 ((imageLayout bytes).textSize.toNat / 8) (bytes.drop 24)

def imageData (bytes : List (BitVec 8)) : List (BitVec 8) :=
  (bytes.drop (24 + (imageLayout bytes).textSize.toNat)).take (imageLayout bytes).dataSize.toNat

/-- A buffer for these elements, which is not allocated when there are none. -/
def buffer {α : Type} : List α → Option (List α)
  | [] => none
  | a :: l => some (a :: l)

def LoadOutputs.holding (layout : ProgramLayout) (text : List (BitVec 64))
    (data : List (BitVec 8)) : LoadOutputs :=
  ⟨buffer text, text.length, buffer data, data.length, layout⟩

def encodeLayout (layout : ProgramLayout) : List (BitVec 8) :=
  encodeWords 4 [layout.textBase, layout.textSize, layout.dataBase, layout.dataSize,
    layout.bssBase, layout.bssSize]

def encodeImage (layout : ProgramLayout) (text : List (BitVec 64)) (data : List (BitVec 8)) :
    List (BitVec 8) :=
  encodeLayout layout ++ (encodeWords 8 text ++ data)

/-- The sizes in the header are those of the sections. -/
def ProgramLayout.Consistent (layout : ProgramLayout) (text : List (BitVec 64))
    (data : List (BitVec 8)) : Prop :=
  layout.textSize.toNat = 8 * text.length ∧ layout.dataSize.toNat = data.length

/-! ## The loader against the format -/

variable {bytes : List (BitVec 8)}

/-- The shifts of `read_u32_le` spell the first four bytes. -/
theorem readU32Le_eq (h : 4 ≤ bytes.length) :
    readU32Le bytes = BitVec.ofNat 32 (leValue (bytes.take 4)) := by
  match bytes, h with
  | b0 :: b1 :: b2 :: b3 :: rest, _ =>
    have h0 := b0.isLt
    have h1 := b1.isLt
    have h2 := b2.isLt
    have h3 := b3.isLt
    have ht0 : (b0.setWidth 32).toNat = b0.toNat := by
      rw [BitVec.toNat_setWidth, Nat.mod_eq_of_lt (by omega)]
    apply BitVec.eq_of_toNat_eq
    have hto1 := ByteOrder.toNat_or_shiftLeft (k := 8) (b0.setWidth 32) b1 (by omega) (by decide)
    have hto2 := ByteOrder.toNat_or_shiftLeft (k := 16) _ b2
      (by rw [hto1, ht0]; omega) (by decide)
    have hto3 := ByteOrder.toNat_or_shiftLeft (k := 24) _ b3
      (by rw [hto2, hto1, ht0]; omega) (by decide)
    simp only [readU32Le, List.getD_cons_zero, List.getD_cons_succ, List.take_succ_cons,
      List.take_zero, leValue_cons, leValue_nil, BitVec.toNat_ofNat]
    rw [hto3, hto2, hto1, ht0]
    omega

theorem headerLayout_take (h : 24 ≤ bytes.length) :
    headerLayout (bytes.take headerSize) = imageLayout bytes := by
  have hsize : headerSize = 24 := rfl
  have hword (i : ℕ) (hi : i < 6) :
      readU32Le ((bytes.take headerSize).drop (4 * i)) = headerWord bytes i := by
    rw [readU32Le_eq (by simp only [List.length_drop, List.length_take]; omega), headerWord,
      List.drop_take, List.take_take, Nat.min_eq_left (by omega)]
  simp only [headerLayout, imageLayout, ← hword 0 (by decide), ← hword 1 (by decide),
    ← hword 2 (by decide), ← hword 3 (by decide), ← hword 4 (by decide), ← hword 5 (by decide)]

theorem buffer_of_ne_nil {α : Type} {l : List α} (h : l ≠ []) : buffer l = some l := by
  cases l with
  | nil => exact absurd rfl h
  | cons a l => rfl

section Sections

variable (m : Bool) (out : LoadOutputs) (fp : List (BitVec 8))

theorem loadText_of_le (hnull : out.program = none) (hzero : out.programSize = 0)
    (halign : out.layout.textSize.toNat % 8 = 0) (hlen : out.layout.textSize.toNat ≤ fp.length) :
    loadText true out fp =
      (true, { out with
        program := buffer (leWords 64 8 (out.layout.textSize.toNat / 8) fp)
        programSize := out.layout.textSize.toNat / 8 }, fp.drop out.layout.textSize.toNat) := by
  unfold loadText
  by_cases hpos : out.layout.textSize.toNat > 0
  · have hne : leWords 64 8 (out.layout.textSize.toNat / 8) fp ≠ [] := by
      rw [← List.length_pos_iff, length_leWords]
      omega
    have htake : (fp.take out.layout.textSize.toNat).length = out.layout.textSize.toNat := by
      rw [List.length_take, Nat.min_eq_left hlen]
    simp only [if_pos hpos, if_true, freadBytes, htake, ne_eq, not_true_eq_false, if_false]
    rw [leWords_take (by omega), buffer_of_ne_nil hne]
  · have hT : out.layout.textSize.toNat = 0 := by omega
    obtain ⟨program, programSize, data, dataSize, layout⟩ := out
    simp only at hnull hzero hT
    simp only [hnull, hzero, hT, gt_iff_lt, lt_irrefl, if_false, Nat.zero_div, leWords, buffer,
      List.drop_zero]

/-- Without the whole text the outputs stay as they are; with it only the program is set. -/
theorem loadText_cases :
    ((loadText m out fp).1 = false ∧ (loadText m out fp).2.1 = out) ∨
    (out.layout.textSize.toNat ≤ fp.length ∧ ∃ program programSize, loadText m out fp =
      (true, { out with program := program, programSize := programSize },
        fp.drop out.layout.textSize.toNat)) := by
  unfold loadText freadBytes
  dsimp only
  split_ifs with hpos hmalloc hshort
  · exact .inl ⟨rfl, rfl⟩
  · rw [not_not, List.length_take] at hshort
    exact .inr ⟨by omega, _, _, rfl⟩
  · exact .inl ⟨rfl, rfl⟩
  · have hzero : out.layout.textSize.toNat = 0 := by omega
    rw [hzero, List.drop_zero]
    exact .inr ⟨Nat.zero_le _, out.program, out.programSize, rfl⟩

theorem loadText_of_lt (hlen : fp.length < out.layout.textSize.toNat) :
    (loadText m out fp).1 = false := by
  obtain ⟨hfail, -⟩ | ⟨hle, -⟩ := loadText_cases m out fp
  · exact hfail
  · omega

/-- A failed text part changes no output. -/
theorem loadText_failed (h : (loadText m out fp).1 = false) : (loadText m out fp).2.1 = out := by
  obtain ⟨-, hout⟩ | ⟨-, program, programSize, hload⟩ := loadText_cases m out fp
  · exact hout
  · rw [hload] at h
    cases h

theorem loadText_data : (loadText m out fp).2.1.data = out.data ∧
    (loadText m out fp).2.1.dataSize = out.dataSize ∧
    (loadText m out fp).2.1.layout = out.layout := by
  obtain ⟨-, hout⟩ | ⟨-, program, programSize, hload⟩ := loadText_cases m out fp
  · rw [hout]
    exact ⟨rfl, rfl, rfl⟩
  · rw [hload]
    exact ⟨rfl, rfl, rfl⟩

theorem loadText_rest (h : (loadText m out fp).1 = true) :
    (loadText m out fp).2.2 = fp.drop out.layout.textSize.toNat := by
  obtain ⟨hfail, -⟩ | ⟨-, program, programSize, hload⟩ := loadText_cases m out fp
  · rw [hfail] at h
    cases h
  · rw [hload]

theorem loadDataSection_of_le (hnull : out.data = none) (hzero : out.dataSize = 0)
    (hlen : out.layout.dataSize.toNat ≤ fp.length) :
    loadDataSection true out fp =
      (true, { out with
        data := buffer (fp.take out.layout.dataSize.toNat)
        dataSize := out.layout.dataSize.toNat }) := by
  unfold loadDataSection
  by_cases hpos : out.layout.dataSize.toNat > 0
  · have htake : (fp.take out.layout.dataSize.toNat).length = out.layout.dataSize.toNat := by
      rw [List.length_take, Nat.min_eq_left hlen]
    have hne : fp.take out.layout.dataSize.toNat ≠ [] := by
      rw [← List.length_pos_iff, htake]
      exact hpos
    simp only [if_pos hpos, if_true, freadBytes, htake, ne_eq, not_true_eq_false, if_false]
    rw [buffer_of_ne_nil hne]
  · have hD : out.layout.dataSize.toNat = 0 := by omega
    obtain ⟨program, programSize, data, dataSize, layout⟩ := out
    simp only at hnull hzero hD
    simp only [hnull, hzero, hD, gt_iff_lt, lt_irrefl, if_false, List.take_zero, buffer]

theorem loadDataSection_of_lt (hlen : fp.length < out.layout.dataSize.toNat) :
    (loadDataSection m out fp).1 = false := by
  have htake : (fp.take out.layout.dataSize.toNat).length ≠ out.layout.dataSize.toNat := by
    rw [List.length_take]
    omega
  have hpos : out.layout.dataSize.toNat > 0 := by omega
  cases m <;> simp only [loadDataSection, freadBytes, hpos, htake, ne_eq, not_false_eq_true,
    if_true, if_false, Bool.false_eq_true]

/-- A failed data part takes the text back and leaves the data outputs alone. -/
theorem loadDataSection_failed (h : (loadDataSection m out fp).1 = false) :
    (loadDataSection m out fp).2 = { out with program := none, programSize := 0 } := by
  simp only [loadDataSection, freadBytes] at h ⊢
  by_cases hpos : out.layout.dataSize.toNat > 0
  · by_cases hread : fp.length < out.layout.dataSize.toNat <;>
      cases m <;> simp [hpos, hread] at h ⊢
  · simp [hpos] at h

end Sections

theorem length_imageText : (imageText bytes).length = (imageLayout bytes).textSize.toNat / 8 :=
  length_leWords _ _ _ _

theorem IsImage.length_imageData (h : IsImage bytes) :
    (imageData bytes).length = (imageLayout bytes).dataSize.toNat := by
  have hsections := h.sections
  rw [imageData, List.length_take, List.length_drop]
  omega

/-- After a complete header with an aligned text size come the two sections. -/
theorem loadProgramSingle_of_header {mallocText mallocData : Bool} (h : 24 ≤ bytes.length)
    (halign : (imageLayout bytes).textSize.toNat % 8 = 0) :
    loadProgramSingle mallocText mallocData (some bytes) =
      match loadText mallocText { LoadOutputs.cleared with layout := imageLayout bytes }
        (bytes.drop headerSize) with
      | (false, out, _) => (false, out)
      | (true, out, fp) => loadDataSection mallocData out fp := by
  have htake : (bytes.take headerSize).length = headerSize := by
    rw [List.length_take, Nat.min_eq_left h]
  simp only [loadProgramSingle, freadBytes, htake, headerLayout_take h, halign, ne_eq,
    not_true_eq_false, if_false]

/-- Without one the loader fails before it allocates. -/
theorem loadProgramSingle_of_bad_header {mallocText mallocData : Bool}
    (h : ¬ (24 ≤ bytes.length ∧ (imageLayout bytes).textSize.toNat % 8 = 0)) :
    ∃ layout, loadProgramSingle mallocText mallocData (some bytes) =
      (false, { LoadOutputs.cleared with layout := layout }) := by
  have hsize : headerSize = 24 := rfl
  by_cases hheader : 24 ≤ bytes.length
  · have halign : (imageLayout bytes).textSize.toNat % 8 ≠ 0 := fun halign => h ⟨hheader, halign⟩
    have htake : (bytes.take headerSize).length = headerSize := by
      rw [List.length_take, Nat.min_eq_left hheader]
    refine ⟨imageLayout bytes, ?_⟩
    simp only [loadProgramSingle, freadBytes, htake, headerLayout_take hheader, ne_eq,
      not_true_eq_false, if_false, halign, not_false_eq_true, if_true]
  · have htake : (bytes.take headerSize).length ≠ headerSize := by
      rw [List.length_take]
      omega
    refine ⟨LoadOutputs.cleared.layout, ?_⟩
    simp only [loadProgramSingle, freadBytes, htake, ne_eq, not_false_eq_true, if_true]

/-- A well-formed image is loaded as what it holds. -/
theorem IsImage.loadProgramSingle_eq (h : IsImage bytes) :
    loadProgramSingle true true (some bytes) =
      (true, .holding (imageLayout bytes) (imageText bytes) (imageData bytes)) := by
  have hsize : headerSize = 24 := rfl
  have hsections := h.sections
  have htext := loadText_of_le { LoadOutputs.cleared with layout := imageLayout bytes }
    (bytes.drop headerSize) rfl rfl h.aligned
    (by rw [List.length_drop, hsize]; dsimp only; omega)
  have hdata := loadDataSection_of_le
    { LoadOutputs.cleared with
      layout := imageLayout bytes
      program := buffer (imageText bytes)
      programSize := (imageLayout bytes).textSize.toNat / 8 }
    ((bytes.drop headerSize).drop (imageLayout bytes).textSize.toNat) rfl rfl
    (by rw [List.length_drop, List.length_drop, hsize]; dsimp only; omega)
  rw [loadProgramSingle_of_header h.header h.aligned, htext]
  refine hdata.trans ?_
  rw [LoadOutputs.holding, length_imageText, h.length_imageData, List.drop_drop]
  rfl

/-- A byte string that is no image is rejected, whatever the allocations do. -/
theorem loadProgramSingle_of_not_isImage {mallocText mallocData : Bool} (h : ¬ IsImage bytes) :
    (loadProgramSingle mallocText mallocData (some bytes)).1 = false := by
  have hsize : headerSize = 24 := rfl
  by_cases hheader : 24 ≤ bytes.length ∧ (imageLayout bytes).textSize.toNat % 8 = 0
  · rw [loadProgramSingle_of_header hheader.1 hheader.2]
    have hshort : bytes.length <
        24 + (imageLayout bytes).textSize.toNat + (imageLayout bytes).dataSize.toNat := by
      by_contra hge
      exact h ⟨hheader.1, hheader.2, by omega⟩
    generalize hout : { LoadOutputs.cleared with layout := imageLayout bytes } = out
    have hlayout : out.layout = imageLayout bytes := by rw [← hout]
    have hkept := (loadText_data mallocText out (bytes.drop headerSize)).2.2
    have hrest := loadText_rest mallocText out (bytes.drop headerSize)
    have henough := loadText_of_lt mallocText out (bytes.drop headerSize)
    rw [List.length_drop, hlayout, hsize] at henough
    cases hload : loadText mallocText out (bytes.drop headerSize) with
    | mk ok r =>
      rw [hload] at hkept hrest henough
      cases ok with
      | false => rfl
      | true =>
        have hle : (imageLayout bytes).textSize.toNat ≤ bytes.length - 24 := by
          by_contra hlt
          cases henough (by omega)
        refine loadDataSection_of_lt mallocData r.1 r.2 ?_
        rw [hrest rfl, hkept, hlayout, List.length_drop, List.length_drop, hsize]
        omega
  · obtain ⟨layout, hfail⟩ := loadProgramSingle_of_bad_header hheader
    rw [hfail]

/-- The outputs after a failure: null pointers and sizes of zero. -/
def LoadOutputs.Empty (out : LoadOutputs) : Prop :=
  out.program = none ∧ out.programSize = 0 ∧ out.data = none ∧ out.dataSize = 0

theorem LoadOutputs.empty_cleared (layout : ProgramLayout) :
    ({ LoadOutputs.cleared with layout := layout } : LoadOutputs).Empty := ⟨rfl, rfl, rfl, rfl⟩

theorem loadProgramSingle_failed {mallocText mallocData : Bool} {file : Option (List (BitVec 8))}
    (h : (loadProgramSingle mallocText mallocData file).1 = false) :
    (loadProgramSingle mallocText mallocData file).2.Empty := by
  cases file with
  | none => exact LoadOutputs.empty_cleared _
  | some bytes =>
    by_cases hheader : 24 ≤ bytes.length ∧ (imageLayout bytes).textSize.toNat % 8 = 0
    · rw [loadProgramSingle_of_header hheader.1 hheader.2] at h ⊢
      generalize hout : { LoadOutputs.cleared with layout := imageLayout bytes } = out at h ⊢
      have hempty : out.Empty := hout ▸ LoadOutputs.empty_cleared _
      have hdata := loadText_data mallocText out (bytes.drop headerSize)
      have hfail := loadText_failed mallocText out (bytes.drop headerSize)
      cases hload : loadText mallocText out (bytes.drop headerSize) with
      | mk ok r =>
        rw [hload] at h hdata hfail
        cases ok with
        | false =>
          have heq : r.1 = out := hfail rfl
          change r.1.Empty
          rwa [heq]
        | true =>
          change (loadDataSection mallocData r.1 r.2).2.Empty
          rw [loadDataSection_failed mallocData r.1 r.2 h]
          exact ⟨rfl, rfl, hdata.1.trans hempty.2.2.1, hdata.2.1.trans hempty.2.2.2⟩
    · obtain ⟨layout, hfail⟩ := loadProgramSingle_of_bad_header hheader
      rw [hfail]
      exact LoadOutputs.empty_cleared layout

/-! ## Round trip -/

variable {layout : ProgramLayout} {text : List (BitVec 64)} {data : List (BitVec 8)}

theorem leWords_header (bytes : List (BitVec 8)) :
    leWords 32 4 6 bytes = [headerWord bytes 0, headerWord bytes 1, headerWord bytes 2,
      headerWord bytes 3, headerWord bytes 4, headerWord bytes 5] := by
  simp [leWords, headerWord, List.drop_drop]

theorem imageLayout_encodeLayout (layout : ProgramLayout) (rest : List (BitVec 8)) :
    imageLayout (encodeLayout layout ++ rest) = layout := by
  have hwords := leWords_encodeWords (k := 4) (by norm_num) [layout.textBase, layout.textSize,
    layout.dataBase, layout.dataSize, layout.bssBase, layout.bssSize] rest
  change leWords 32 4 6 (encodeLayout layout ++ rest) = _ at hwords
  rw [leWords_header] at hwords
  simp only [List.cons.injEq, and_true] at hwords
  simp only [imageLayout, hwords]

theorem length_encodeLayout (layout : ProgramLayout) : (encodeLayout layout).length = 24 := by
  simp [encodeLayout]

/-- Encoding with the right sizes and decoding is the identity, also before more bytes. -/
theorem image_encodeImage (h : layout.Consistent text data) (rest : List (BitVec 8)) :
    IsImage (encodeImage layout text data ++ rest) ∧
      imageLayout (encodeImage layout text data ++ rest) = layout ∧
      imageText (encodeImage layout text data ++ rest) = text ∧
      imageData (encodeImage layout text data ++ rest) = data := by
  have hheader := length_encodeLayout layout
  have htext := length_encodeWords 8 text
  have hlayout : imageLayout (encodeImage layout text data ++ rest) = layout := by
    rw [encodeImage, List.append_assoc]
    exact imageLayout_encodeLayout layout _
  have hdrop : (encodeImage layout text data ++ rest).drop 24 =
      encodeWords 8 text ++ (data ++ rest) := by
    rw [encodeImage, List.append_assoc, List.drop_left' hheader, List.append_assoc]
  refine ⟨⟨?_, ?_, ?_⟩, hlayout, ?_, ?_⟩
  · simp only [encodeImage, List.length_append]
    omega
  · rw [hlayout, h.1]
    omega
  · rw [hlayout, h.1, h.2]
    simp only [encodeImage, List.length_append]
    omega
  · rw [imageText, hlayout, h.1, hdrop, Nat.mul_div_cancel_left _ (by decide)]
    exact leWords_encodeWords (by norm_num) text _
  · rw [imageData, hlayout, h.1, h.2, ← List.drop_drop, hdrop, List.drop_left' htext,
      List.take_left' rfl]

/-- The loader decodes the image format: it accepts the images and no other byte string,
it returns what an image holds, it inverts the encoding, and when it fails it leaves no
buffer behind. -/
theorem loadProgramSingle_decodes :
    (∀ bytes, (loadProgramSingle true true (some bytes)).1 = true ↔ IsImage bytes) ∧
    (∀ bytes, IsImage bytes → loadProgramSingle true true (some bytes) =
      (true, .holding (imageLayout bytes) (imageText bytes) (imageData bytes))) ∧
    (∀ layout text data rest, layout.Consistent text data →
      loadProgramSingle true true (some (encodeImage layout text data ++ rest)) =
        (true, .holding layout text data)) ∧
    ∀ mallocText mallocData file, (loadProgramSingle mallocText mallocData file).1 = false →
      (loadProgramSingle mallocText mallocData file).2.Empty := by
  refine ⟨fun bytes => ⟨fun h => ?_, fun h => ?_⟩, fun bytes h => h.loadProgramSingle_eq, ?_,
    fun _ _ _ h => loadProgramSingle_failed h⟩
  · by_contra hno
    rw [loadProgramSingle_of_not_isImage hno] at h
    cases h
  · rw [h.loadProgramSingle_eq]
  · intro layout text data rest hsizes
    obtain ⟨himage, hlayout, htext, hdata⟩ := image_encodeImage hsizes rest
    rw [himage.loadProgramSingle_eq, hlayout, htext, hdata]

/-- An image with one instruction, two bytes of data and a byte behind them. -/
theorem loadProgramSingle_one_word :
    loadProgramSingle true true
        (some (encodeImage ⟨0x300000, 8, 0x300008, 2, 0x30000C, 4⟩ [0x0102030405060708] [1, 2] ++
          [9])) =
      (true, .holding ⟨0x300000, 8, 0x300008, 2, 0x30000C, 4⟩ [0x0102030405060708] [1, 2]) :=
  loadProgramSingle_decodes.2.2.1 _ _ _ _ ⟨by decide, by decide⟩

end LampVm
