import WordAssembler.Proofs.Assembly
import WordAssembler.Proofs.Content
import WordAssembler.Proofs.Lines

/-!
# Reported lines are lines of the source

Lines are numbered before the idle ones are dropped, and from then on a line is only handed on, to
the label table, the statements, the listing, the warnings and the reports. So whatever an assembly
carries of its source stands there, character by character, on the line of that number. The order of
the source is kept too, which makes the earlier line of a collision the first line of the source
that has the label.
-/

namespace WordAssembler

namespace Text

/-- Holds of the line that a text starts with. A carriage return directly before the line feed
belongs to the end of the line, and a line without a line feed is not empty. -/
inductive StartsWithLine (line : List Char) : List Char → Prop
  | ended {rest : List Char} (hline : '\n' ∉ line) (hreturn : line.getLast? ≠ some '\r') :
      StartsWithLine line (line ++ '\n' :: rest)
  | returned {rest : List Char} (hline : '\n' ∉ line) :
      StartsWithLine line (line ++ '\r' :: '\n' :: rest)
  | unended (hline : '\n' ∉ line) (hne : line ≠ []) : StartsWithLine line line

def Ended (text : List Char) : Prop :=
  text = [] ∨ ∃ body, text = body ++ ['\n']

variable {text line first : List Char}

theorem lines_cons (hfirst : '\n' ∉ first) (rest : List Char) :
    lines (first ++ '\n' :: rest) = dropReturn first :: lines rest := by
  rw [lines_append_newline, List.splitOn_eq_singleton hfirst, List.map_singleton,
    List.singleton_append]

theorem lines_of_no_newline (htext : '\n' ∉ text) (hne : text ≠ []) : lines text = [text] := by
  unfold lines
  rw [List.splitOn_eq_singleton htext]
  simp [hne]

theorem dropReturn_append_return (line : List Char) : dropReturn (line ++ ['\r']) = line := by
  simp [dropReturn]

theorem dropReturn_of_ne (hreturn : line.getLast? ≠ some '\r') : dropReturn line = line :=
  if_neg hreturn

theorem head?_lines_iff : (lines text).head? = some line ↔ StartsWithLine line text := by
  constructor
  · intro hhead
    by_cases hnewline : '\n' ∈ text
    · obtain ⟨first, rest, rfl, hfirst⟩ := List.eq_append_cons_of_mem hnewline
      rw [lines_cons hfirst, List.head?_cons, Option.some.injEq] at hhead
      by_cases hreturn : first.getLast? = some '\r'
      · obtain ⟨body, rfl⟩ := List.getLast?_eq_some_iff.mp hreturn
        rw [dropReturn_append_return] at hhead
        subst hhead
        rw [List.append_assoc, List.singleton_append]
        exact .returned fun hbody => hfirst (List.mem_append_left _ hbody)
      · rw [dropReturn_of_ne hreturn] at hhead
        subst hhead
        exact .ended hfirst hreturn
    · by_cases hne : text = []
      · subst hne
        cases hhead
      · rw [lines_of_no_newline hnewline hne, List.head?_cons, Option.some.injEq] at hhead
        subst hhead
        exact .unended hnewline hne
  · intro hstarts
    cases hstarts with
    | ended hline hreturn => rw [lines_cons hline, dropReturn_of_ne hreturn, List.head?_cons]
    | @returned rest hline =>
        have hfirst : '\n' ∉ line ++ ['\r'] := by simp [hline]
        rw [← List.singleton_append, ← List.append_assoc, lines_cons hfirst,
          dropReturn_append_return, List.head?_cons]
    | unended hline hne => rw [lines_of_no_newline hline hne, List.head?_cons]

theorem length_splitOn (separator : Char) (text : List Char) :
    (text.splitOn separator).length = text.count separator + 1 := by
  induction text with
  | nil => rfl
  | cons c text ih =>
      rw [List.splitOn_cons_eq_if_modifyHead, List.count_cons]
      split_ifs with hseparator
      · rw [List.length_cons, ih]
      · rw [List.length_modifyHead, ih, Nat.add_zero]

theorem length_lines_of_ended (hend : Ended text) : (lines text).length = text.count '\n' := by
  rcases hend with rfl | ⟨body, rfl⟩
  · rfl
  · have hnil : lines [] = [] := by decide
    rw [lines_append_newline, hnil, List.append_nil, List.length_map, length_splitOn,
      List.count_append, List.count_singleton_self]

/-- The lines above a line are the text that ends at its start, and there are as many as that text
has line feeds. -/
theorem getElem?_lines_iff {index : Nat} : (lines text)[index]? = some line ↔
    ∃ above below, text = above ++ below ∧ Ended above ∧ above.count '\n' = index ∧
      StartsWithLine line below := by
  constructor
  · intro hline
    -- Line by line down to the one looked for, with the lines passed put above it.
    induction index generalizing text with
    | zero =>
        rw [← List.head?_eq_getElem?] at hline
        exact ⟨[], text, rfl, Or.inl rfl, rfl, head?_lines_iff.mp hline⟩
    | succ index ih =>
        by_cases hnewline : '\n' ∈ text
        · obtain ⟨first, rest, rfl, hfirst⟩ := List.eq_append_cons_of_mem hnewline
          rw [lines_cons hfirst, List.getElem?_cons_succ] at hline
          obtain ⟨above, below, rfl, habove, hcount, hstarts⟩ := ih hline
          refine ⟨first ++ '\n' :: above, below, by simp, Or.inr ?_, ?_, hstarts⟩
          · rcases habove with rfl | ⟨body, rfl⟩
            · exact ⟨first, rfl⟩
            · exact ⟨first ++ '\n' :: body, by simp⟩
          · rw [List.count_append, List.count_eq_zero_of_not_mem hfirst, List.count_cons_self,
              hcount, Nat.zero_add]
        · by_cases hne : text = []
          · subst hne
            cases hline
          · rw [lines_of_no_newline hnewline hne] at hline
            cases hline
  · rintro ⟨above, below, rfl, habove, rfl, hstarts⟩
    have hlength := length_lines_of_ended habove
    rw [lines_append habove, List.getElem?_append_right (by omega), hlength, Nat.sub_self,
      ← List.head?_eq_getElem?]
    exact head?_lines_iff.mpr hstarts

end Text

/-! ### Lines of a source -/

namespace SourceLine

open Text

/-- Holds of a line that stands in the source as it is: as many line feeds above it as its number
says, and its text between the last of them and the end of the line. -/
def StandsIn (source : String) (line : SourceLine) : Prop :=
  ∃ above below, source.toList = above ++ below ∧ Ended above ∧
    above.count '\n' + 1 = line.number ∧ StartsWithLine line.text.toList below

def HasLabel (name : String) (line : SourceLine) : Prop :=
  ∃ code, LineContent.ofText line.text = .ok ⟨some name, code⟩

variable {source name : String} {line : SourceLine}

/-- A line number counts the line feeds above the line, and the text on it is what stands there
without its ending. -/
theorem mem_numbered_iff : line ∈ numbered source ↔ line.StandsIn source := by
  have hmem : line ∈ numbered source ↔
      1 ≤ line.number ∧ (lines source.toList)[line.number - 1]? = some line.text.toList := by
    obtain ⟨number, text⟩ := line
    rw [← List.mk_mem_zipIdx_iff_le_and_getElem?_sub, numbered, List.mem_map]
    constructor
    · rintro ⟨⟨chars, index⟩, hchars, hline⟩
      cases hline
      rwa [String.toList_ofList]
    · intro hchars
      exact ⟨_, hchars, by simp⟩
  rw [hmem, getElem?_lines_iff, StandsIn]
  constructor
  · rintro ⟨hnumber, above, below, hsource, habove, hcount, hstarts⟩
    exact ⟨above, below, hsource, habove, by omega, hstarts⟩
  · rintro ⟨above, below, hsource, habove, hcount, hstarts⟩
    exact ⟨by omega, above, below, hsource, habove, by omega, hstarts⟩

theorem pairwise_number_numbered (source : String) :
    (numbered source).Pairwise (·.number < ·.number) := by
  have hnumbers : (numbered source).map SourceLine.number =
      List.range' 1 (lines source.toList).length := by
    rw [numbered, List.map_map, ← List.zipIdx_map_snd]
    rfl
  rw [← List.pairwise_map, hnumbers]
  exact List.pairwise_lt_range'

theorem pairwise_number_kept (source : String) : (kept source).Pairwise (·.number < ·.number) :=
  (pairwise_number_numbered source).sublist List.filter_sublist

theorem standsIn_of_mem_kept (hline : line ∈ kept source) : line.StandsIn source :=
  mem_numbered_iff.mp (List.mem_of_mem_filter hline)

theorem hasLabel_iff : line.HasLabel name ↔ line.label? = some name := by
  unfold HasLabel label?
  cases hread : LineContent.ofText line.text with
  | error fault => simp
  | ok content =>
      obtain ⟨label, code⟩ := content
      simp

/-- An idle line has no label, so no labelled line is dropped. -/
theorem mem_kept_of_hasLabel (hline : line.StandsIn source) (hlabel : line.HasLabel name) :
    line ∈ kept source := by
  rw [kept, List.mem_filter]
  refine ⟨mem_numbered_iff.mpr hline, ?_⟩
  cases hidle : line.isIdle with
  | false => rfl
  | true =>
      obtain ⟨code, hread⟩ := hlabel
      rw [LineContent.ofText_of_body_eq_nil (LineContent.body_of_isIdle hidle)] at hread
      cases hread

theorem number_le_of_find?_kept {first other : SourceLine}
    (hfirst : (kept source).find? (·.label? == some name) = some first)
    (hother : other ∈ kept source) (hlabel : other.label? = some name) :
    first.number ≤ other.number := by
  obtain ⟨-, before, after, hsplit, hbefore⟩ := List.find?_eq_some_iff_append.mp hfirst
  have hordered := pairwise_number_kept source
  rw [hsplit] at hother hordered
  rcases List.mem_append.mp hother with habove | hbelow
  · have hnot := hbefore other habove
    simp [hlabel] at hnot
  · rcases List.mem_cons.mp hbelow with rfl | hafter
    · exact Nat.le_refl _
    · have hlater := (List.pairwise_cons.mp (List.pairwise_append.mp hordered).2.1).1
      exact Nat.le_of_lt (hlater other hafter)

end SourceLine

/-! ### Lines of an outcome -/

namespace Layout

/-- What lines add one after the other stays in their order, each line adding at most one thing. -/
theorem sublist_map_addedFrom {α : Type} {added : SourceLine → Nat → List α}
    {lineOf : α → SourceLine} (hadded : ∀ line address,
      ((added line address).map lineOf).Sublist [line]) (address : Nat) (lines : List SourceLine) :
    ((addedFrom added address lines).map lineOf).Sublist lines := by
  induction lines generalizing address with
  | nil => exact List.Sublist.refl []
  | cons line lines ih =>
      rw [addedFrom, List.map_append]
      exact (hadded line address).append (ih _)

theorem sublist_lines_labelsFrom (address : Nat) (lines : List SourceLine) :
    ((labelsFrom address lines).map Label.line).Sublist lines := by
  apply sublist_map_addedFrom
  intro line address
  unfold SourceLine.labelsAt
  cases line.label? <;> simp

theorem sublist_lines_statementsFrom (address : Nat) (lines : List SourceLine) :
    ((statementsFrom address lines).map Statement.line).Sublist lines := by
  apply sublist_map_addedFrom
  intro line address
  unfold SourceLine.statementsAt
  cases line.code? <;> simp

end Layout

open SourceLine

theorem Assembly.sublist_lines_warnings (assembly : Assembly) :
    (assembly.warnings.map Warning.line).Sublist
      (assembly.listing.map fun listed => listed.statement.line) := by
  unfold warnings
  induction assembly.listing with
  | nil => exact List.Sublist.refl []
  | cons listed listing ih =>
      rw [List.filterMap_cons, List.map_cons]
      cases hwarning : listed.warning? with
      | none => exact ih.cons _
      | some warning =>
          obtain ⟨truncation, -, rfl⟩ := Option.map_eq_some_iff.mp hwarning
          exact ih.cons_cons _

section Outcome

variable {source name : String} {assembly : Assembly} {report : Report}

theorem map_statement_listing (hassemble : assemble source = .ok assembly) :
    assembly.listing.map Listed.statement = Layout.statementsFrom 0 (kept source) := by
  obtain ⟨-, -, hlisting, -⟩ := assemble_eq_ok.mp hassemble
  have hstatement : ∀ (statement : Statement) (listed : Listed),
      statement.assemble assembly.labels = .ok listed → statement = listed.statement := by
    intro statement listed hlisted
    exact (Statement.assemble_eq_ok.mp hlisted).1.symm
  have hequal := hlisting.imp hstatement
  rw [← List.forall₂_map_right_iff, List.forall₂_eq_eq_eq] at hequal
  exact hequal.symm

theorem sublist_lines_listing (hassemble : assemble source = .ok assembly) :
    (assembly.listing.map fun listed => listed.statement.line).Sublist (kept source) := by
  have hlines := Layout.sublist_lines_statementsFrom 0 (kept source)
  rw [← map_statement_listing hassemble, List.map_map] at hlines
  exact hlines

theorem mem_kept_of_mem_labels (hassemble : assemble source = .ok assembly) {label : Label}
    (hlabel : label ∈ assembly.labels.labels) : label.line ∈ kept source := by
  obtain ⟨-, hlabels, -, -⟩ := assemble_eq_ok.mp hassemble
  rw [hlabels] at hlabel
  exact (Layout.sublist_lines_labelsFrom 0 (kept source)).subset (List.mem_map_of_mem hlabel)

theorem SourceLine.RefusedAfter.mem_lines {earlier later : List SourceLine} {line : SourceLine}
    (hrefused : line.RefusedAfter earlier report) {carried : SourceLine}
    (hcarried : report.line = some carried ∨ report.previous = some carried) :
    carried ∈ earlier ++ line :: later := by
  cases hrefused with
  | unreadable hread =>
      rcases hcarried with hline | hprevious
      · cases hline
        simp
      · cases hprevious
  | redefines hlabel hfirst =>
      rcases hcarried with hline | hprevious
      · cases hline
        simp
      · cases hprevious
        exact List.mem_append_left _ (List.mem_of_find?_eq_some hfirst)

/-- Every line that a report carries is one of the source. -/
theorem mem_kept_of_report (hreport : assemble source = .error report) {carried : SourceLine}
    (hcarried : report.line = some carried ∨ report.previous = some carried) :
    carried ∈ kept source := by
  rcases assemble_eq_error.mp hreport with hlines | ⟨layout, hlayout, hassembly⟩
  · obtain ⟨earlier, line, later, hsplit, -, hrefused⟩ := Layout.ofLines_eq_error.mp hlines
    rw [hsplit]
    exact hrefused.mem_lines hcarried
  · rcases Assembly.ofLayout_eq_error.mp hassembly with
      ⟨before, statement, after, fault, hsplit, -, -, rfl⟩ | ⟨-, -, rfl⟩
    · obtain ⟨-, -, hstatements⟩ := Layout.ofLines_eq_ok.mp hlayout
      have hstatement : statement ∈ Layout.statementsFrom 0 (kept source) := by
        rw [← hstatements, hsplit]
        simp
      rcases hcarried with hline | hprevious
      · cases hline
        exact (Layout.sublist_lines_statementsFrom 0 (kept source)).subset
          (List.mem_map_of_mem hstatement)
      · cases hprevious
    · rcases hcarried with hline | hprevious
      · cases hline
      · cases hprevious

/-- The two lines of a collision, the earlier one found from the top of the source. -/
theorem exists_collision (hreport : assemble source = .error report)
    (hfault : report.fault = .duplicateLabel name) : ∃ line previous, report.line = some line ∧
      report.previous = some previous ∧ previous.number < line.number ∧
      line.label? = some name ∧ (kept source).find? (·.label? == some name) = some previous := by
  rcases report_cases hreport with ⟨earlier, line, later, hsplit, hrefused⟩ |
    ⟨labels, statement, fault, hrefused, rfl⟩ | ⟨layout, -, -, -, rfl⟩
  · have hprevious := (hrefused.previous_eq hfault later).1
    rw [← hsplit] at hprevious
    have hordered := pairwise_number_kept source
    rw [hsplit] at hordered
    cases hrefused with
    | unreadable hread =>
        cases hfault
        exact absurd hread (LineContent.ofText_ne_duplicateLabel line.text name)
    | @redefines _ first hlabel hfirst =>
        cases hfault
        have hlt := (List.pairwise_append.mp hordered).2.2 first
          (List.mem_of_find?_eq_some hfirst) line List.mem_cons_self
        exact ⟨line, first, rfl, rfl, hlt, hlabel, hprevious.symm⟩
  · exact absurd hfault (hrefused.ne_duplicateLabel name)
  · cases hfault

end Outcome

/-- **Lines are reported as they stand in the source.** Every line that the outcome of an assembly
carries stands in the source with the number and the text it has. The listing follows the source
from top to bottom, and the warnings follow the listing. Where a label is defined again, the line
named as the earlier one has the label, stands above, and is the first line of the source that
has it. -/
theorem source_lines_exact (source : String) :
    (∀ assembly, assemble source = .ok assembly →
      (∀ label ∈ assembly.labels.labels, label.line.StandsIn source) ∧
      (∀ listed ∈ assembly.listing, listed.statement.line.StandsIn source) ∧
      (∀ warning ∈ assembly.warnings, warning.line.StandsIn source) ∧
      (assembly.listing.map fun listed => listed.statement.line.number).Pairwise (· < ·) ∧
      (assembly.warnings.map fun warning => warning.line.number).Sublist
        (assembly.listing.map fun listed => listed.statement.line.number)) ∧
    ∀ report, assemble source = .error report →
      (∀ line, report.line = some line → line.StandsIn source) ∧
      (∀ previous, report.previous = some previous → previous.StandsIn source) ∧
      ∀ name, report.fault = .duplicateLabel name → ∃ line previous,
        report.line = some line ∧ report.previous = some previous ∧
        previous.number < line.number ∧ line.HasLabel name ∧ previous.HasLabel name ∧
        ∀ other : SourceLine, other.StandsIn source → other.HasLabel name →
          previous.number ≤ other.number := by
  refine ⟨?_, ?_⟩
  · intro assembly hassemble
    have hlisting := sublist_lines_listing hassemble
    have hwarnings := assembly.sublist_lines_warnings
    refine ⟨?_, ?_, ?_, ?_, ?_⟩
    · intro label hlabel
      exact standsIn_of_mem_kept (mem_kept_of_mem_labels hassemble hlabel)
    · intro listed hlisted
      exact standsIn_of_mem_kept (hlisting.subset (List.mem_map_of_mem hlisted))
    · intro warning hwarning
      exact standsIn_of_mem_kept
        (hlisting.subset (hwarnings.subset (List.mem_map_of_mem hwarning)))
    · have hordered := (pairwise_number_kept source).sublist hlisting
      rwa [← List.pairwise_map, List.map_map] at hordered
    · have hnumbers := hwarnings.map SourceLine.number
      rwa [List.map_map, List.map_map] at hnumbers
  · intro report hreport
    refine ⟨?_, ?_, ?_⟩
    · intro line hline
      exact standsIn_of_mem_kept (mem_kept_of_report hreport (Or.inl hline))
    · intro previous hprevious
      exact standsIn_of_mem_kept (mem_kept_of_report hreport (Or.inr hprevious))
    · intro name hfault
      obtain ⟨line, previous, hline, hprevious, hlt, hlabel, hfirst⟩ :=
        exists_collision hreport hfault
      have hpreviousLabel : previous.label? = some name := by
        simpa using List.find?_some hfirst
      refine ⟨line, previous, hline, hprevious, hlt, hasLabel_iff.mpr hlabel,
        hasLabel_iff.mpr hpreviousLabel, ?_⟩
      intro other hother hotherLabel
      exact number_le_of_find?_kept hfirst (mem_kept_of_hasLabel hother hotherLabel)
        (hasLabel_iff.mp hotherLabel)

theorem source_lines_exact_idle_and_returns :
    (∃ assembly, assemble "; top\r\n\r\n a: nop\r\n\nldi r0, 300" = .ok assembly ∧
      assembly.warnings.map (·.line) = [⟨5, "ldi r0, 300"⟩] ∧
      SourceLine.StandsIn "; top\r\n\r\n a: nop\r\n\nldi r0, 300" ⟨3, " a: nop"⟩ ∧
      SourceLine.StandsIn "; top\r\n\r\n a: nop\r\n\nldi r0, 300" ⟨5, "ldi r0, 300"⟩) ∧
    ∃ report line previous, assemble "\n a: nop\r\n; a:\na : stop" = .error report ∧
      report.fault = .duplicateLabel "a" ∧ report.line = some line ∧
      report.previous = some previous ∧ previous = ⟨2, " a: nop"⟩ ∧ line = ⟨4, "a : stop"⟩ ∧
      previous.StandsIn "\n a: nop\r\n; a:\na : stop" ∧ previous.HasLabel "a" := by
  have hassembled : (assemble "; top\r\n\r\n a: nop\r\n\nldi r0, 300").toOption.map
      (fun assembly => (assembly.labels.labels, assembly.warnings.map (·.line))) =
        some ([⟨"a", ⟨3, " a: nop"⟩, 0⟩], [⟨5, "ldi r0, 300"⟩]) := by decide +kernel
  have hrefused : (assemble "\n a: nop\r\n; a:\na : stop").map (fun _ => ()) = .error
      ⟨.duplicateLabel "a", some ⟨4, "a : stop"⟩, some ⟨2, " a: nop"⟩⟩ := by decide +kernel
  refine ⟨?_, ?_⟩
  · obtain ⟨assembly, hassemble, hfacts⟩ := Pass.map_toOption_eq_some.mp hassembled
    obtain ⟨hlabels, hwarnings⟩ := Prod.mk.inj hfacts
    obtain ⟨hlabel, -, hwarning, -⟩ := (source_lines_exact _).1 assembly hassemble
    obtain ⟨warning, hmem, hline⟩ := List.mem_map.mp (hwarnings ▸ List.mem_cons_self)
    refine ⟨assembly, hassemble, hwarnings, ?_, ?_⟩
    · exact hlabel ⟨"a", ⟨3, " a: nop"⟩, 0⟩ (by simp [hlabels])
    · exact hline ▸ hwarning warning hmem
  · cases hassembly : assemble "\n a: nop\r\n; a:\na : stop" with
    | ok assembly =>
        rw [hassembly] at hrefused
        cases hrefused
    | error report =>
        rw [hassembly] at hrefused
        cases hrefused
        obtain ⟨-, hstands, hcollision⟩ := (source_lines_exact _).2 _ hassembly
        obtain ⟨line, previous, hline, hprevious, -, -, hlabel, -⟩ := hcollision "a" rfl
        cases hline
        cases hprevious
        exact ⟨_, _, _, rfl, rfl, rfl, rfl, rfl, rfl, hstands _ rfl, hlabel⟩

end WordAssembler
