import WordAssembler.Proofs.Assembly
import WordAssembler.Proofs.Lines
import WordAssembler.Proofs.Numeral

/-!
# The memory image shows the memory

The image of a program is one line for each cell of the memory between a fixed header and a fixed
end. The memory is never larger than four hexadecimal digits can address, so every line can be read
back and the image shows what the memory holds: the words of the program, then zeros. It does not
show where the program ends.
-/

namespace WordAssembler.Program

open Numeral Text

/-! ### The depth -/

/-- The bit length of a number is the exponent of the least power of two above it. -/
theorem bitLength_le_iff {n k : Nat} : bitLength n ≤ k ↔ n < 2 ^ k := by
  unfold bitLength
  by_cases hn : n = 0
  · simp [hn]
  · rw [if_neg hn, Nat.add_one_le_iff, Nat.log2_lt hn]

variable (program : Program)

theorem depth_eq_zero (hsize : program.size = 0) : program.depth = 0 := by
  rw [depth, if_pos hsize]

/-- The depth is twice the least power of two that has room for the words. -/
theorem depth_eq_two_mul_pow (hsize : 0 < program.size) :
    ∃ k, program.depth = 2 * 2 ^ k ∧ program.size ≤ 2 ^ k ∧
      ∀ j, program.size ≤ 2 ^ j → k ≤ j := by
  refine ⟨bitLength (program.size - 1), ?_, ?_, ?_⟩
  · rw [depth, if_neg (by omega), Nat.one_shiftLeft]
  · have hlt := bitLength_le_iff.mp (Nat.le_refl (bitLength (program.size - 1)))
    omega
  · intro j hj
    apply bitLength_le_iff.mpr
    omega

theorem size_le_depth : program.size ≤ program.depth := by
  rcases Nat.eq_zero_or_pos program.size with hzero | hpos
  · omega
  · obtain ⟨k, hdepth, hle, -⟩ := program.depth_eq_two_mul_pow hpos
    omega

theorem depth_le : program.depth ≤ 65536 := by
  rcases Nat.eq_zero_or_pos program.size with hzero | hpos
  · rw [program.depth_eq_zero hzero]
    omega
  · obtain ⟨k, hdepth, -, hleast⟩ := program.depth_eq_two_mul_pow hpos
    have hk : k ≤ 15 := hleast 15 program.length_le
    have hpow : 2 ^ k ≤ 2 ^ 15 := Nat.pow_le_pow_right (by decide) hk
    omega

/-! ### Cells and their lines -/

theorem length_cells : program.cells.length = program.depth := by
  have hle := program.size_le_depth
  rw [cells, List.length_append, List.length_replicate]
  change program.size + (program.depth - program.size) = program.depth
  omega

theorem getElem?_cells {address : Nat} (haddress : address < program.depth) :
    program.cells[address]? = some (program.words.getD address 0) := by
  have hle : program.words.length ≤ program.depth := program.size_le_depth
  rw [cells, size, List.getElem?_append, List.getD_eq_getElem?_getD]
  split_ifs with hwords
  · rw [List.getElem?_eq_getElem hwords, Option.getD_some]
  · have hfill : address - program.words.length < program.depth - program.words.length := by omega
    rw [List.getElem?_replicate_of_lt hfill, List.getElem?_eq_none (by omega), Option.getD_none]

def ShowsCell (line : String) (address : Nat) (word : Word) : Prop :=
  ∃ left right, line = left ++ " : " ++ right ++ ";" ∧
    HexWord "0123456789abcdef" left address ∧ HexWord "0123456789abcdef" right word.toNat

theorem showsCell_cellLine {address : Nat} (haddress : address < 65536) (word : Word) :
    ShowsCell (cellLine word address) address word :=
  ⟨hexLower 4 address, hexLower 4 word.toNat, rfl, hexWord_hex (by decide) haddress,
    hexWord_hex (by decide) word.toNat_lt⟩

theorem cellLine_injective (address : Nat) :
    Function.Injective fun word => cellLine word address := by
  intro word other heq
  have hdigits : hexLower 4 word.toNat = hexLower 4 other.toNat := by
    simpa [cellLine, ← String.toList_inj] using heq
  exact UInt16.toNat_inj.mp (hex_injective .lower 4 hdigits)

def cellLines : List String :=
  program.cells.zipIdx.map fun cell => cellLine cell.1 cell.2

theorem getElem?_cellLines (address : Nat) : program.cellLines[address]? =
    program.cells[address]?.map fun word => cellLine word address := by
  rw [cellLines, List.getElem?_map, List.getElem?_zipIdx, Option.map_map, Nat.zero_add]
  rfl

theorem cells_eq_of_cellLines_eq {p q : Program} (hlines : p.cellLines = q.cellLines) :
    p.cells = q.cells := by
  apply List.ext_getElem?
  intro address
  apply Option.map_injective (cellLine_injective address)
  rw [← getElem?_cellLines, ← getElem?_cellLines, hlines]

/-! ### The text -/

theorem newline_not_mem_imageLines : ∀ line ∈ program.imageLines, '\n' ∉ line.toList := by
  have hlower : ∀ width n, '\n' ∉ (hexLower width n).toList := by
    intro width n hmem
    obtain ⟨d, hd, hchar⟩ := mem_hex hmem
    have hdigits : ∀ d < 16, '\n' ≠ Nat.digitChar d := by decide
    exact hdigits d hd hchar
  have hdecimal : ∀ n, '\n' ∉ (decimal n).toList := by
    intro n hmem
    exact absurd (mem_decimal hmem) (by decide)
  intro line hline
  rcases List.mem_append.mp hline with hline | hline
  · rcases List.mem_append.mp hline with hline | hline
    · simp only [imageHeader, List.mem_cons, List.not_mem_nil, or_false] at hline
      rcases hline with rfl | rfl | rfl | rfl | rfl | rfl | rfl
      all_goals simp [hdecimal]
    · obtain ⟨cell, -, rfl⟩ := List.mem_map.mp hline
      simp [cellLine, hlower]
  · simp only [List.mem_cons, List.not_mem_nil, or_false] at hline
    rcases hline with rfl | rfl
    all_goals simp

/-- No line of the image holds a line feed, so cutting the text gives back the lines it was made of.
-/
theorem rawLines_image : rawLines program.image =
    imageHeader program.depth ++ program.cellLines ++ ["", "END;", ""] := by
  rw [image, rawLines_of_ended program.newline_not_mem_imageLines, imageLines, List.append_assoc]
  rfl

/-- The image shows its depth and its cells and nothing else. -/
theorem image_eq_iff {p q : Program} :
    p.image = q.image ↔ p.depth = q.depth ∧ p.cells = q.cells := by
  constructor
  · intro himage
    have hlines := congrArg rawLines himage
    rw [rawLines_image, rawLines_image] at hlines
    have hbody := List.append_cancel_right hlines
    have hheaders : imageHeader p.depth = imageHeader q.depth ∧ p.cellLines = q.cellLines :=
      List.append_inj hbody rfl
    have hdecimal : decimal p.depth = decimal q.depth := by
      simpa [imageHeader, ← String.toList_inj] using hheaders.1
    exact ⟨decimal_injective hdecimal, cells_eq_of_cellLines_eq hheaders.2⟩
  · rintro ⟨hdepth, hcells⟩
    rw [image, image, imageLines, imageLines, hdepth, hcells]

/-- **The memory image.** Of any words that fit, the image is the header with the depth, one line
for each cell and the end. The depth is twice the least power of two that the words fit in, and the
line of a cell is read back as its address and as the word there, zero behind the words. So two
images are the same text exactly where the memories are the same, wherever the programs end. -/
theorem image_exact :
    (∀ words, (∃ program, ofWords words = .ok program) ↔ words.length ≤ 32768) ∧
    (∀ words program, ofWords words = .ok program →
      (words = [] → program.depth = 0) ∧
      (words ≠ [] → ∃ k, program.depth = 2 * 2 ^ k ∧ words.length ≤ 2 ^ k ∧
        ∀ j, words.length ≤ 2 ^ j → k ≤ j) ∧
      words.length ≤ program.depth ∧ program.depth ≤ 65536 ∧
      value? 10 (decimal program.depth).toList = some program.depth ∧
      ∃ lines : List String,
        rawLines program.image = ["DEPTH = " ++ decimal program.depth ++ ";", "WIDTH = 16;",
          "ADDRESS_RADIX = HEX;", "DATA_RADIX = HEX;", "CONTENT", "BEGIN", ""] ++ lines ++
          ["", "END;", ""] ∧
        lines.length = program.depth ∧
        ∀ address < program.depth, ∃ line, lines[address]? = some line ∧
          ShowsCell line address (words.getD address 0)) ∧
    ∀ p q : Program, p.image = q.image ↔ p.depth = q.depth ∧
      p.words.rightpad p.depth 0 = q.words.rightpad q.depth 0 := by
  refine ⟨?_, ?_, fun p q => image_eq_iff⟩
  · intro words
    simp only [ofWords_eq_ok]
    constructor
    · rintro ⟨program, rfl⟩
      exact program.length_le
    · intro hle
      exact ⟨⟨words, hle⟩, rfl⟩
  · intro words program hwords
    obtain rfl := ofWords_eq_ok.mp hwords
    refine ⟨?_, ?_, program.size_le_depth, program.depth_le, value?_decimal _,
      program.cellLines, program.rawLines_image, ?_, ?_⟩
    · intro hnil
      exact program.depth_eq_zero (List.length_eq_zero_iff.mpr hnil)
    · intro hne
      exact program.depth_eq_two_mul_pow (List.length_pos_iff.mpr hne)
    · rw [cellLines, List.length_map, List.length_zipIdx, length_cells]
    · intro address haddress
      have hlt : address < 65536 := Nat.lt_of_lt_of_le haddress program.depth_le
      refine ⟨_, ?_, showsCell_cellLine hlt _⟩
      rw [getElem?_cellLines, program.getElem?_cells haddress, Option.map_some]

theorem image_exact_trailing_zero :
    ∃ p q, ofWords [0x1fe9, 0x2983, 0x8000] = .ok p ∧
      ofWords [0x1fe9, 0x2983, 0x8000, 0x0000] = .ok q ∧ p.image = q.image ∧
      ∃ line, (rawLines p.image)[9]? = some line ∧ ShowsCell line 2 0x8000 := by
  obtain ⟨p, hp⟩ := (image_exact.1 [0x1fe9, 0x2983, 0x8000]).mpr (by decide)
  obtain ⟨q, hq⟩ := (image_exact.1 [0x1fe9, 0x2983, 0x8000, 0x0000]).mpr (by decide)
  have hwordsP := ofWords_eq_ok.mp hp
  have hwordsQ := ofWords_eq_ok.mp hq
  have hdepthP : p.depth = 8 := by
    rw [depth, size, hwordsP]
    decide
  have hdepthQ : q.depth = 8 := by
    rw [depth, size, hwordsQ]
    decide
  refine ⟨p, q, hp, hq, (image_exact.2.2 p q).mpr ⟨by rw [hdepthP, hdepthQ], ?_⟩, ?_⟩
  · rw [hdepthP, hdepthQ, hwordsP, hwordsQ]
    decide
  · obtain ⟨-, -, -, -, -, lines, htext, hlength, hlines⟩ := image_exact.2.1 _ p hp
    obtain ⟨line, hline, hshows⟩ := hlines 2 (by omega)
    refine ⟨line, ?_, hshows⟩
    rw [htext]
    simpa [List.getElem?_append, hlength, hdepthP] using hline

end WordAssembler.Program
