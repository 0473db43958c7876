import Mathlib.Logic.Relation
import WordAssembler.Proofs.Outline

/-!
# How a source is written

Blank lines, comments, indentation, carriage returns and the line that a label stands on are left to
the writer of a source. Each of them is a small edit of the source's lines that leaves the entries
as they are, so edits made or undone in any number and order leave the program as it is.
-/

namespace WordAssembler

open Text

inductive LineEdit : List String → List String → Prop
  /-- A line of blanks is put in. -/
  | blank {line : String} (hline : Blanks line.toList) : LineEdit [] [line]
  /-- A line with a comment alone is put in. -/
  | commentLine {front : String} (hfront : Blanks front.toList) (comment : String) :
      LineEdit [] [front ++ ";" ++ comment]
  /-- A comment is put behind a line. -/
  | comment (line comment : String) : LineEdit [line] [line ++ ";" ++ comment]
  /-- Blanks are put around a line. -/
  | pad {front back : String} (hfront : Blanks front.toList) (hback : Blanks back.toList)
      (line : String) : LineEdit [line] [front ++ line ++ back]
  /-- The code behind a label is moved to a line of its own. -/
  | split {line label code : String} (hline : LineContent.ofText line = .ok ⟨some label, code⟩) :
      LineEdit [line] [label ++ ":", code]

def Edited (source edited : String) : Prop :=
  ∃ above before after below, LineEdit before after ∧
    rawLines source = above ++ before ++ below ∧ rawLines edited = above ++ after ++ below

/-- No edit of a line changes its entries. -/
theorem LineEdit.entries_eq {before after : List String} (hedit : LineEdit before after) :
    after.flatMap Entry.ofText = before.flatMap Entry.ofText := by
  cases hedit with
  | blank hline =>
      have hbody := LineContent.body_of_blanks hline
      rw [List.flatMap_singleton, Entry.ofText_of_body_eq_nil hbody, List.flatMap_nil]
  | @commentLine front hfront comment =>
      have hbody : LineContent.body (front ++ ";" ++ comment) = [] := by
        rw [LineContent.body_append_comment, LineContent.body_of_blanks hfront]
      rw [List.flatMap_singleton, Entry.ofText_of_body_eq_nil hbody, List.flatMap_nil]
  | comment line comment =>
      rw [List.flatMap_singleton, List.flatMap_singleton]
      exact Entry.ofText_congr (LineContent.body_append_comment line comment)
  | pad hfront hback line =>
      rw [List.flatMap_singleton, List.flatMap_singleton]
      exact Entry.ofText_pad hfront hback line
  | split hline =>
      simp only [List.flatMap_cons, List.flatMap_nil, List.append_nil, Entry.ofText, hline,
        LineContent.ofText_label hline, LineContent.ofText_code hline]
      rfl

/-- An edited source has the entries of the source it came from. -/
theorem Edited.entries_eq {source edited : String} (hedited : Edited source edited) :
    Entry.ofSource edited = Entry.ofSource source := by
  obtain ⟨above, before, after, below, hedit, hsource, hafter⟩ := hedited
  rw [Entry.ofSource_eq_flatMap_rawLines, Entry.ofSource_eq_flatMap_rawLines, hsource, hafter]
  simp only [List.flatMap_append, hedit.entries_eq]

/-- **Layout does not matter.** Sources that differ by edits of their lines, made or undone in any
number and order, are assembled alike: both to the same words, labels and warnings, or neither, and
then for the same fault. -/
theorem assemble_of_edits {source edited : String}
    (hedits : Relation.EqvGen Edited source edited) :
    ((∃ a, assemble source = .ok a) ↔ ∃ b, assemble edited = .ok b) ∧
    (∀ a b, assemble source = .ok a → assemble edited = .ok b →
      a.program.words = b.program.words ∧ a.labels.toList = b.labels.toList ∧
      a.warnings.map (·.truncation.message) = b.warnings.map (·.truncation.message)) ∧
    ∀ report report', assemble source = .error report → assemble edited = .error report' →
      report.fault = report'.fault := by
  have hentries : Entry.ofSource source = Entry.ofSource edited := by
    induction hedits with
    | rel _ _ hedited => exact hedited.entries_eq.symm
    | refl _ => rfl
    | symm _ _ _ ih => exact ih.symm
    | trans _ _ _ _ _ ih₁ ih₂ => exact ih₁.trans ih₂
  have houtcome := outcome_assemble_congr hentries
  cases hsource : assemble source with
  | error report =>
      cases hedited : assemble edited with
      | error report' =>
          rw [hsource, hedited] at houtcome
          have hfault : report.fault = report'.fault := Except.error.inj houtcome
          simpa using hfault
      | ok b =>
          rw [hsource, hedited] at houtcome
          cases houtcome
  | ok a =>
      cases hedited : assemble edited with
      | error report =>
          rw [hsource, hedited] at houtcome
          cases houtcome
      | ok b =>
          rw [hsource, hedited] at houtcome
          have hessence : a.essence = b.essence := Except.ok.inj houtcome
          simp only [Assembly.essence, Prod.mk.injEq] at hessence
          simpa using hessence

theorem assemble_of_edits_header_and_returns :
    Relation.EqvGen Edited "a: nop\r\njmp a" "; start\na:\nnop ; once\r\njmp a\n" ∧
    ∃ b, assemble "; start\na:\nnop ; once\r\njmp a\n" = .ok b ∧
      b.program.words = [0x0000, 0xffd2] ∧ b.labels.toList = [("a", 0)] := by
  have hedits : Relation.EqvGen Edited "a: nop\r\njmp a"
      "; start\na:\nnop ; once\r\njmp a\n" := by
    have hnil : Blanks "".toList := by simp [Blanks]
    have hspace : Blanks " ".toList := by simp [Blanks, isBlank, blankRanges]
    have hsplit : Edited "a: nop\r\njmp a" "a:\nnop\njmp a" :=
      ⟨[], ["a: nop\r"], ["a" ++ ":", "nop"], ["jmp a"], .split rfl, by decide +kernel,
        by decide +kernel⟩
    have hpad : Edited "a:\nnop\njmp a" "a:\nnop \njmp a" :=
      ⟨["a:"], ["nop"], ["" ++ "nop" ++ " "], ["jmp a"], .pad hnil hspace "nop",
        by decide +kernel, by decide +kernel⟩
    have hcomment : Edited "a:\nnop \njmp a" "a:\nnop ; once\r\njmp a" :=
      ⟨["a:"], ["nop "], ["nop " ++ ";" ++ " once\r"], ["jmp a"], .comment "nop " " once\r",
        by decide +kernel, by decide +kernel⟩
    have hblank : Edited "a:\nnop ; once\r\njmp a" "a:\nnop ; once\r\njmp a\n" :=
      ⟨["a:", "nop ; once\r", "jmp a"], [], [""], [], .blank hnil, by decide +kernel,
        by decide +kernel⟩
    have hheader : Edited "a:\nnop ; once\r\njmp a\n" "; start\na:\nnop ; once\r\njmp a\n" :=
      ⟨[], [], ["" ++ ";" ++ " start"], ["a:", "nop ; once\r", "jmp a", ""],
        .commentLine hnil " start", by decide +kernel, by decide +kernel⟩
    exact ((((Relation.EqvGen.rel _ _ hsplit).trans _ _ _ (.rel _ _ hpad)).trans _ _ _
      (.rel _ _ hcomment)).trans _ _ _ (.rel _ _ hblank)).trans _ _ _ (.rel _ _ hheader)
  have hassembled : (assemble "a: nop\r\njmp a").toOption.map (fun a =>
      (a.program.words, a.labels.toList)) = some ([0x0000, 0xffd2], [("a", 0)]) := by
    decide +kernel
  obtain ⟨a, ha, hfacts⟩ := Pass.map_toOption_eq_some.mp hassembled
  obtain ⟨hwordsA, hlabelsA⟩ := Prod.mk.inj hfacts
  obtain ⟨hboth, hsame, -⟩ := assemble_of_edits hedits
  obtain ⟨b, hb⟩ := hboth.mp ⟨a, ha⟩
  obtain ⟨hwords, hlabels, -⟩ := hsame a b ha hb
  exact ⟨hedits, b, hb, hwords.symm.trans hwordsA, hlabels.symm.trans hlabelsA⟩

end WordAssembler
