import WordAssembler.Proofs.Layout
import WordAssembler.Proofs.LineGrammar

/-!
# Lines that hold nothing

Whether a line holds nothing is decided in two ways. Idle lines are told by their first character
after trimming, before any line is read; reading a line cuts its comment off first, trims what is
left and then looks for a colon. Both come to the same, that nothing but blanks stands before the
comment or the end. The first pass goes over such a line as it is, so it makes no difference to the
layout or to the report whether idle lines are dropped before it.
-/

namespace WordAssembler

open Text Operation

namespace SourceLine

variable {line : SourceLine}

theorem isIdle_of_blanks {front : List Char} (hfront : Blanks front)
    (hcommented : LineContent.Commented line.text front) : line.isIdle := by
  rcases hcommented with htext | ⟨comment, htext⟩
  · rw [isIdle, htext, trim_eq_nil_iff.mpr hfront]
  · -- The semicolon is the first character that trimming leaves.
    have hsolid : trim (';' :: comment) = ';' :: dropTrailingBlanks comment :=
      @trim_append_cons ';' [] comment (by decide)
    rw [isIdle, htext, trim_blanks_append hfront, hsolid]
    rfl

theorem isIdle_iff_ofText : line.isIdle ↔ LineContent.ofText line.text = .ok ⟨none, ""⟩ := by
  constructor
  · intro hidle
    exact LineContent.ofText_of_body_eq_nil (LineContent.body_of_isIdle hidle)
  · intro hread
    obtain ⟨part, hpart, -, hcode⟩ := LineContent.ofText_eq_code_iff.mp hread
    have hnil : trim part = [] := trim_eq_iff.mpr hcode
    exact isIdle_of_blanks (trim_eq_nil_iff.mp hnil) hpart.commented

theorem kept_eq_filter (source : String) : kept source =
    (numbered source).filter fun line => LineContent.ofText line.text ≠ .ok ⟨none, ""⟩ := by
  rw [kept]
  apply List.filter_congr
  intro line _
  rw [Bool.eq_iff_iff]
  simp [← isIdle_iff_ofText]

end SourceLine

namespace Layout

/-- An empty line changes no layout. -/
theorem addLine_of_isIdle {line : SourceLine} (hidle : line.isIdle) (layout : Layout) :
    layout.addLine line = .ok layout := by
  rw [addLine_of_unlabelled (SourceLine.isIdle_iff_ofText.mp hidle) rfl]
  rfl

/-- Dropping the empty lines first or passing over them is the same, from any layout on. -/
theorem foldlM_addLine_filter (lines : List SourceLine) (layout : Layout) :
    (lines.filter (!·.isIdle)).foldlM addLine layout = lines.foldlM addLine layout := by
  induction lines generalizing layout with
  | nil => rfl
  | cons line lines ih =>
      rw [List.foldlM_cons]
      by_cases hidle : line.isIdle
      · rw [List.filter_cons_of_neg (by simp [hidle]), ih, addLine_of_isIdle hidle]
        rfl
      · rw [List.filter_cons_of_pos (by simp [hidle]), List.foldlM_cons]
        apply congrArg (layout.addLine line >>= ·)
        funext next
        exact ih next

end Layout

/-- **Idle lines.** The first pass comes to the same layout or the same report over all lines of a
source as over those that are kept. A line is dropped exactly where reading it would have given
neither a label nor code, so none is lost that would have been refused, or have defined a label. -/
theorem idle_lines_exact (source : String) :
    Layout.ofLines (SourceLine.numbered source) = Layout.ofLines (SourceLine.kept source) ∧
    SourceLine.kept source = (SourceLine.numbered source).filter
      (fun line => LineContent.ofText line.text ≠ .ok ⟨none, ""⟩) ∧
    ∀ line ∈ SourceLine.numbered source, line ∉ SourceLine.kept source ↔
      LineContent.ofText line.text = .ok ⟨none, ""⟩ := by
  refine ⟨?_, SourceLine.kept_eq_filter source, ?_⟩
  · exact (Layout.foldlM_addLine_filter (SourceLine.numbered source) {}).symm
  · intro line hline
    rw [SourceLine.kept_eq_filter, List.mem_filter]
    simp [hline]

theorem idle_lines_exact_colon_in_comment :
    SourceLine.numbered "\u00a0; a: b\r\nx: ; c\n\t\r\r\n jmp x" =
      [⟨1, "\u00a0; a: b"⟩, ⟨2, "x: ; c"⟩, ⟨3, "\t\r"⟩, ⟨4, " jmp x"⟩] ∧
    SourceLine.kept "\u00a0; a: b\r\nx: ; c\n\t\r\r\n jmp x" =
      [⟨2, "x: ; c"⟩, ⟨4, " jmp x"⟩] ∧
    LineContent.ofText "\u00a0; a: b" = .ok ⟨none, ""⟩ ∧
    LineContent.ofText "x: ; c" ≠ .ok ⟨none, ""⟩ ∧
    Layout.ofLines [⟨1, "\u00a0; a: b"⟩, ⟨2, "x: ; c"⟩, ⟨3, "\t\r"⟩, ⟨4, " jmp x"⟩] =
      Layout.ofLines [⟨2, "x: ; c"⟩, ⟨4, " jmp x"⟩] := by
  have hnumbered : SourceLine.numbered "\u00a0; a: b\r\nx: ; c\n\t\r\r\n jmp x" =
      [⟨1, "\u00a0; a: b"⟩, ⟨2, "x: ; c"⟩, ⟨3, "\t\r"⟩, ⟨4, " jmp x"⟩] := by decide +kernel
  have hkept : SourceLine.kept "\u00a0; a: b\r\nx: ; c\n\t\r\r\n jmp x" =
      [⟨2, "x: ; c"⟩, ⟨4, " jmp x"⟩] := by decide +kernel
  obtain ⟨hlayouts, -, hdropped⟩ :=
    idle_lines_exact "\u00a0; a: b\r\nx: ; c\n\t\r\r\n jmp x"
  rw [hnumbered, hkept] at hlayouts hdropped
  refine ⟨hnumbered, hkept, ?_, ?_, hlayouts⟩
  · exact (hdropped ⟨1, "\u00a0; a: b"⟩ (by simp)).mp (by simp)
  · intro hempty
    exact (hdropped ⟨2, "x: ; c"⟩ (by simp)).mpr hempty (by simp)

end WordAssembler
