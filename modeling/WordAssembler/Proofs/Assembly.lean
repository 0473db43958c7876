import WordAssembler.Assembly
import WordAssembler.Proofs.Layout
import WordAssembler.Proofs.Parsing
import WordAssembler.Proofs.Resolution

/-!
# What assembling a source gives

The second pass turns the statements of the layout into instructions one by one, all against the
same label table, and only then is the program measured. A successful assembly is therefore pinned
down by the kept lines alone. A failed one is blamed on a line before a statement and on a statement
before the size, whatever else is wrong with the source.
-/

namespace WordAssembler

open SourceLine

namespace Statement

theorem assemble_eq_ok {labels : LabelTable} {statement : Statement} {listed : Listed} :
    statement.assemble labels = .ok listed ↔ listed.statement = statement ∧
      Operation.parse statement.code = .ok listed.operation ∧
      listed.operation.resolve labels statement.address = .ok listed.instruction := by
  simp only [assemble, Pass.mapError_eq_ok, Pass.bind_eq_ok, Pass.pure_eq_ok]
  constructor
  · rintro ⟨operation, hparse, instruction, hresolve, rfl⟩
    exact ⟨rfl, hparse, hresolve⟩
  · rintro ⟨rfl, hparse, hresolve⟩
    exact ⟨_, hparse, _, hresolve, rfl⟩

/-- Holds of a statement that cannot be read or cannot be resolved against the labels, and of the
fault that was found. -/
def Refused (labels : LabelTable) (statement : Statement) (fault : Fault) : Prop :=
  Operation.parse statement.code = .error fault ∨
    ∃ operation, Operation.parse statement.code = .ok operation ∧
      operation.resolve labels statement.address = .error fault

def Faultless (labels : LabelTable) (statements : List Statement) : Prop :=
  ∀ statement ∈ statements, ¬∃ fault, statement.Refused labels fault

theorem assemble_eq_error {labels : LabelTable} {statement : Statement} {report : Report} :
    statement.assemble labels = .error report ↔
      ∃ fault, statement.Refused labels fault ∧ Report.at statement.line fault = report := by
  simp only [assemble, Pass.mapError_eq_error, Pass.bind_eq_error, Refused]
  refine exists_congr fun fault => and_congr_left fun _ => or_congr_right ?_
  refine exists_congr fun operation => and_congr_right fun _ => ?_
  constructor
  · rintro (hresolve | ⟨instruction, -, hpure⟩)
    · exact hresolve
    · cases hpure
  · exact Or.inl

theorem not_refused_iff {labels : LabelTable} {statement : Statement} :
    (¬∃ fault, statement.Refused labels fault) ↔
      ∃ listed, statement.assemble labels = .ok listed := by
  constructor
  · intro hnot
    cases hassemble : statement.assemble labels with
    | ok listed => exact ⟨listed, rfl⟩
    | error report =>
        obtain ⟨fault, hrefused, -⟩ := assemble_eq_error.mp hassemble
        exact absurd ⟨fault, hrefused⟩ hnot
  · rintro ⟨listed, hlisted⟩ ⟨fault, hrefused⟩
    rw [assemble_eq_error.mpr ⟨fault, hrefused, rfl⟩] at hlisted
    cases hlisted

theorem Refused.ne_duplicateLabel {labels : LabelTable} {statement : Statement} {fault : Fault}
    (hrefused : statement.Refused labels fault) (name : String) :
    fault ≠ .duplicateLabel name := by
  rintro rfl
  rcases hrefused with hparse | ⟨operation, -, hresolve⟩
  · exact Operation.parse_ne_duplicateLabel name statement.code hparse
  · exact Operation.resolve_ne_duplicateLabel operation name hresolve

end Statement

namespace Program

theorem ofWords_eq_ok {words : List Word} {program : Program} :
    ofWords words = .ok program ↔ program.words = words := by
  obtain ⟨stored, hstored⟩ := program
  unfold ofWords
  split
  · simp [eq_comm]
  · rename_i hlarge
    simp only [reduceCtorEq, false_iff]
    rintro rfl
    exact hlarge hstored

theorem ofWords_eq_error {words : List Word} {fault : Fault} :
    ofWords words = .error fault ↔
      capacity < words.length ∧ fault = .programTooLarge words.length capacity := by
  unfold ofWords
  split
  · simp only [reduceCtorEq, false_iff]
    omega
  · simp only [Except.error.injEq, eq_comm, iff_and_self]
    omega

end Program

namespace Assembly

theorem ofLayout_eq_ok {layout : Layout} {assembly : Assembly} :
    ofLayout layout = .ok assembly ↔ assembly.labels = layout.labels ∧
      List.Forall₂ (fun statement listed => statement.assemble layout.labels = .ok listed)
        layout.statements.toList assembly.listing ∧
      assembly.program.words = assembly.listing.map Listed.word := by
  simp only [ofLayout, Pass.bind_eq_ok, Pass.pure_eq_ok, Pass.mapM_eq_ok, Pass.mapError_eq_ok,
    Program.ofWords_eq_ok]
  constructor
  · rintro ⟨listing, hlisting, program, hprogram, rfl⟩
    exact ⟨rfl, hlisting, hprogram⟩
  · rintro ⟨hlabels, hlisting, hprogram⟩
    refine ⟨_, hlisting, _, hprogram, ?_⟩
    rw [← hlabels]

/-- Of the statements that are refused the first is reported. The size is looked at only where none
is. -/
theorem ofLayout_eq_error {layout : Layout} {report : Report} :
    ofLayout layout = .error report ↔
      (∃ before statement after fault, layout.statements.toList = before ++ statement :: after ∧
        Statement.Faultless layout.labels before ∧ statement.Refused layout.labels fault ∧
        Report.at statement.line fault = report) ∨
      Statement.Faultless layout.labels layout.statements.toList ∧
        capacity < layout.statements.size ∧
        { fault := .programTooLarge layout.statements.size capacity } = report := by
  simp only [Statement.Faultless, Statement.not_refused_iff]
  rw [ofLayout, Pass.bind_eq_error, Pass.mapM_eq_error]
  apply or_congr
  · simp only [Statement.assemble_eq_error]
    constructor
    · rintro ⟨before, statement, after, hsplit, hbefore, fault, hrefused, hreport⟩
      exact ⟨before, statement, after, fault, hsplit, hbefore, hrefused, hreport⟩
    · rintro ⟨before, statement, after, fault, hsplit, hbefore, hrefused, hreport⟩
      exact ⟨before, statement, after, hsplit, hbefore, fault, hrefused, hreport⟩
  · simp only [← Pass.exists_mapM_eq_ok, Pass.bind_eq_error, Pass.mapError_eq_error,
      Program.ofWords_eq_error, List.length_map]
    -- A listing is as long as the layout has statements.
    have hlength : ∀ {listing : List Listed},
        layout.statements.toList.mapM (Statement.assemble layout.labels) = .ok listing →
          listing.length = layout.statements.size := by
      intro listing hlisting
      rw [← (Pass.mapM_eq_ok.mp hlisting).length_eq, Array.length_toList]
    constructor
    · rintro ⟨listing, hlisting, ⟨fault, ⟨hlarge, rfl⟩, rfl⟩ | ⟨program, -, hpure⟩⟩
      · rw [hlength hlisting] at hlarge ⊢
        exact ⟨⟨listing, hlisting⟩, hlarge, rfl⟩
      · cases hpure
    · rintro ⟨⟨listing, hlisting⟩, hlarge, rfl⟩
      rw [← hlength hlisting] at hlarge ⊢
      exact ⟨listing, hlisting, Or.inl ⟨_, ⟨hlarge, rfl⟩, rfl⟩⟩

end Assembly

theorem assemble_eq_ok {source : String} {assembly : Assembly} :
    assemble source = .ok assembly ↔ (∀ line ∈ kept source, line.Readable) ∧
      assembly.labels.labels = Layout.labelsFrom 0 (kept source) ∧
      List.Forall₂ (fun statement listed => statement.assemble assembly.labels = .ok listed)
        (Layout.statementsFrom 0 (kept source)) assembly.listing ∧
      assembly.program.words = assembly.listing.map Listed.word := by
  simp only [assemble, Pass.bind_eq_ok, Layout.ofLines_eq_ok, Assembly.ofLayout_eq_ok]
  constructor
  · rintro ⟨layout, ⟨hlines, hlabels, hstatements⟩, hassembly, hlisting, hwords⟩
    rw [hstatements, ← hassembly] at hlisting
    exact ⟨hlines, hassembly ▸ hlabels, hlisting, hwords⟩
  · rintro ⟨hlines, hlabels, hlisting, hwords⟩
    exact ⟨⟨assembly.labels, (Layout.statementsFrom 0 (kept source)).toArray⟩,
      ⟨hlines, hlabels, List.toList_toArray ..⟩, rfl, hlisting, hwords⟩

section Listing

variable {source : String} {assembly : Assembly}

theorem size_eq_length_listing (hassemble : assemble source = .ok assembly) :
    assembly.program.size = assembly.listing.length := by
  obtain ⟨-, -, -, hwords⟩ := assemble_eq_ok.mp hassemble
  rw [Program.size, hwords, List.length_map]

/-- A program has one word for each line that holds code. -/
theorem size_eq_extent (hassemble : assemble source = .ok assembly) :
    assembly.program.size = Layout.extent (kept source) := by
  obtain ⟨-, -, hlisting, -⟩ := assemble_eq_ok.mp hassemble
  rw [size_eq_length_listing hassemble, ← hlisting.length_eq, Layout.length_statementsFrom]

theorem assemble_of_getElem?_listing (hassemble : assemble source = .ok assembly) {index : Nat}
    {listed : Listed} (hlisted : assembly.listing[index]? = some listed) :
    listed.statement.address = index ∧
      listed.statement.assemble assembly.labels = .ok listed := by
  obtain ⟨-, -, hlisting, -⟩ := assemble_eq_ok.mp hassemble
  obtain ⟨hright, rfl⟩ := List.getElem?_eq_some_iff.mp hlisted
  have hleft := hright
  rw [← hlisting.length_eq] at hleft
  have hstatement := hlisting.get hleft hright
  have haddress := Layout.address_of_getElem?_statementsFrom (List.getElem?_eq_getElem hleft)
  rw [Nat.zero_add] at haddress
  have heq := (Statement.assemble_eq_ok.mp hstatement).1
  rw [List.get_eq_getElem, List.get_eq_getElem] at heq hstatement
  rw [heq]
  exact ⟨haddress, hstatement⟩

theorem getElem?_words (hassemble : assemble source = .ok assembly) {index : Nat}
    {listed : Listed} (hlisted : assembly.listing[index]? = some listed) :
    assembly.program.words[index]? = some listed.word := by
  obtain ⟨-, -, -, hwords⟩ := assemble_eq_ok.mp hassemble
  rw [hwords, List.getElem?_map, hlisted, Option.map_some]

/-- A statement that assembles was resolved into the range of its fields, so its word decodes to the
instruction itself. -/
theorem decode?_word {labels : LabelTable} {statement : Statement} {listed : Listed}
    (hlisted : statement.assemble labels = .ok listed) :
    Instruction.decode? listed.word = some listed.instruction := by
  obtain ⟨-, hparse, hresolve⟩ := Statement.assemble_eq_ok.mp hlisted
  have hfamily := Operation.family_of_parse hparse
  exact Instruction.decode?_encode (Operation.canonical_of_resolve hfamily hresolve)

/-- A label may stand behind the last statement, so its address can be the size of the program but
never more. -/
theorem address_le_size (hassemble : assemble source = .ok assembly) {name : String}
    {address : Nat} (haddress : assembly.labels.address? name = some address) :
    address ≤ assembly.program.size := by
  obtain ⟨-, hlabels, -, -⟩ := assemble_eq_ok.mp hassemble
  obtain ⟨label, hfind, rfl⟩ := Option.map_eq_some_iff.mp haddress
  have hmem := List.mem_of_find?_eq_some hfind
  rw [hlabels] at hmem
  have hle := Layout.address_le_of_mem_labelsFrom hmem
  rw [size_eq_extent hassemble]
  omega

end Listing

theorem assemble_eq_error {source : String} {report : Report} :
    assemble source = .error report ↔ Layout.ofLines (kept source) = .error report ∨
      ∃ layout, Layout.ofLines (kept source) = .ok layout ∧
        Assembly.ofLayout layout = .error report :=
  Pass.bind_eq_error

/-! ### Which fault is reported -/

theorem SourceLine.RefusedAfter.line_eq {earlier : List SourceLine} {line : SourceLine}
    {report : Report} (hrefused : line.RefusedAfter earlier report) : report.line = some line := by
  cases hrefused <;> rfl

/-- A line that is refused for its label names the first line that has this label. -/
theorem SourceLine.RefusedAfter.previous_eq {earlier : List SourceLine} {line : SourceLine}
    {report : Report} (hrefused : line.RefusedAfter earlier report) {name : String}
    (hfault : report.fault = .duplicateLabel name) (later : List SourceLine) :
    report.previous = (earlier ++ line :: later).find? (·.label? == some name) ∧
      report.previous.isSome := by
  cases hrefused with
  | unreadable hread =>
      cases hfault
      exact absurd hread (LineContent.ofText_ne_duplicateLabel line.text name)
  | redefines hlabel hfirst =>
      cases hfault
      rw [List.find?_append, hfirst]
      exact ⟨rfl, rfl⟩

theorem SourceLine.RefusedAfter.exists_duplicateLabel {earlier : List SourceLine}
    {line : SourceLine} {report : Report} (hrefused : line.RefusedAfter earlier report)
    (hprevious : report.previous.isSome) : ∃ name, report.fault = .duplicateLabel name := by
  cases hrefused with
  | unreadable hread => cases hprevious
  | redefines hlabel hfirst => exact ⟨_, rfl⟩

section Outcome

variable {source : String} {layout : Layout} {report : Report}

/-- The first pass stops at the first line it refuses, and nothing that the second pass would find
is looked for. -/
theorem exists_refused_line (hrefused : ¬Layout.Accepted (kept source)) :
    ∃ earlier line later report, kept source = earlier ++ line :: later ∧
      Layout.Accepted earlier ∧ line.RefusedAfter earlier report ∧
      assemble source = .error report := by
  cases hlines : Layout.ofLines (kept source) with
  | ok layout => exact absurd (Layout.exists_ofLines_eq_ok_iff.mp ⟨layout, hlines⟩) hrefused
  | error report =>
      obtain ⟨earlier, line, later, hsplit, hearlier, hline⟩ :=
        Layout.ofLines_eq_error.mp hlines
      exact ⟨earlier, line, later, report, hsplit, Layout.exists_ofLines_eq_ok_iff.mp hearlier,
        hline, assemble_eq_error.mpr (Or.inl hlines)⟩

/-- Every statement is resolved before the program is measured, so the first statement that is
refused is reported even where the program is too large as well. -/
theorem exists_refused_statement (hlayout : Layout.ofLines (kept source) = .ok layout)
    (hfaulty : ¬Statement.Faultless layout.labels layout.statements.toList) :
    ∃ before statement after fault, layout.statements.toList = before ++ statement :: after ∧
      Statement.Faultless layout.labels before ∧ statement.Refused layout.labels fault ∧
      assemble source = .error { fault, line := some statement.line } := by
  have hlisting : ¬∃ listing,
      layout.statements.toList.mapM (Statement.assemble layout.labels) = .ok listing := by
    rw [Pass.exists_mapM_eq_ok]
    simpa only [Statement.Faultless, Statement.not_refused_iff] using hfaulty
  cases hmapM : layout.statements.toList.mapM (Statement.assemble layout.labels) with
  | ok listing => exact absurd ⟨listing, hmapM⟩ hlisting
  | error report =>
      have hreport : Assembly.ofLayout layout = .error report := by
        rw [Assembly.ofLayout, hmapM]
        rfl
      rcases Assembly.ofLayout_eq_error.mp hreport with
        ⟨before, statement, after, fault, hsplit, hbefore, hrefused, rfl⟩ | ⟨hfaultless, -⟩
      · exact ⟨before, statement, after, fault, hsplit, hbefore, hrefused,
          assemble_eq_error.mpr (Or.inr ⟨layout, hlayout, hreport⟩)⟩
      · exact absurd hfaultless hfaulty

theorem assemble_of_large (hlayout : Layout.ofLines (kept source) = .ok layout)
    (hfaultless : Statement.Faultless layout.labels layout.statements.toList)
    (hlarge : capacity < layout.statements.size) : assemble source =
      .error { fault := .programTooLarge layout.statements.size capacity } := by
  refine assemble_eq_error.mpr (Or.inr ⟨layout, hlayout, ?_⟩)
  exact Assembly.ofLayout_eq_error.mpr (Or.inr ⟨hfaultless, hlarge, rfl⟩)

theorem exists_assembly (hlayout : Layout.ofLines (kept source) = .ok layout)
    (hfaultless : Statement.Faultless layout.labels layout.statements.toList)
    (hfits : layout.statements.size ≤ capacity) : ∃ assembly, assemble source = .ok assembly := by
  cases hassembly : assemble source with
  | ok assembly => exact ⟨assembly, rfl⟩
  | error report =>
      exfalso
      rcases assemble_eq_error.mp hassembly with hlines | ⟨other, hother, hreport⟩
      · rw [hlayout] at hlines
        cases hlines
      · rw [hlayout] at hother
        cases hother
        rcases Assembly.ofLayout_eq_error.mp hreport with
          ⟨before, statement, after, fault, hsplit, -, hrefused, -⟩ | ⟨-, hlarge, -⟩
        · exact hfaultless statement (by simp [hsplit]) ⟨fault, hrefused⟩
        · omega

/-- Where a report comes from. -/
theorem report_cases (hreport : assemble source = .error report) :
    (∃ earlier line later, kept source = earlier ++ line :: later ∧
      line.RefusedAfter earlier report) ∨
    (∃ labels statement fault, Statement.Refused labels statement fault ∧
      report = { fault, line := some statement.line }) ∨
    ∃ layout, Layout.ofLines (kept source) = .ok layout ∧
      Statement.Faultless layout.labels layout.statements.toList ∧
      capacity < layout.statements.size ∧
      report = { fault := .programTooLarge layout.statements.size capacity } := by
  rcases assemble_eq_error.mp hreport with hlines | ⟨layout, hlayout, hassembly⟩
  · obtain ⟨earlier, line, later, hsplit, -, hrefused⟩ := Layout.ofLines_eq_error.mp hlines
    exact Or.inl ⟨earlier, line, later, hsplit, hrefused⟩
  · rcases Assembly.ofLayout_eq_error.mp hassembly with
      ⟨before, statement, after, fault, -, -, hrefused, rfl⟩ | ⟨hfaultless, hlarge, rfl⟩
    · exact Or.inr (Or.inl ⟨layout.labels, statement, fault, hrefused, rfl⟩)
    · exact Or.inr (Or.inr ⟨layout, hlayout, hfaultless, hlarge, rfl⟩)

end Outcome

/-- **The outcome of an assembly.** A line that the first pass refuses is reported, the first of
them, whatever is wrong with the rest of the source. Else the first statement that cannot be read
or resolved is reported. Else a program that is larger than the memory is reported, without a line.
Else the source is assembled. An earlier line is named exactly where a label is defined again. -/
theorem assemble_outcome (source : String) :
    (¬Layout.Accepted (kept source) →
      ∃ earlier line later report, kept source = earlier ++ line :: later ∧
        Layout.Accepted earlier ∧ line.RefusedAfter earlier report ∧
        assemble source = .error report) ∧
    (Layout.Accepted (kept source) →
      ∃ layout, Layout.ofLines (kept source) = .ok layout ∧
        (¬Statement.Faultless layout.labels layout.statements.toList →
          ∃ before statement after fault,
            layout.statements.toList = before ++ statement :: after ∧
            Statement.Faultless layout.labels before ∧ statement.Refused layout.labels fault ∧
            assemble source = .error { fault, line := some statement.line }) ∧
        (Statement.Faultless layout.labels layout.statements.toList →
          (32768 < layout.statements.size → assemble source =
            .error { fault := .programTooLarge layout.statements.size 32768 }) ∧
          (layout.statements.size ≤ 32768 → ∃ assembly, assemble source = .ok assembly))) ∧
    ∀ report, assemble source = .error report →
      (report.line = none → ∃ layout, Layout.ofLines (kept source) = .ok layout ∧
        Statement.Faultless layout.labels layout.statements.toList ∧
        32768 < layout.statements.size ∧
        report.fault = .programTooLarge layout.statements.size 32768) ∧
      (report.previous.isSome ↔ ∃ name, report.fault = .duplicateLabel name) ∧
      ∀ name, report.fault = .duplicateLabel name →
        report.previous = (kept source).find? (·.label? == some name) := by
  refine ⟨exists_refused_line, ?_, ?_⟩
  · intro haccepted
    obtain ⟨layout, hlayout⟩ := Layout.exists_ofLines_eq_ok_iff.mpr haccepted
    exact ⟨layout, hlayout, exists_refused_statement hlayout, fun hfaultless =>
      ⟨assemble_of_large hlayout hfaultless, exists_assembly hlayout hfaultless⟩⟩
  · intro report hreport
    rcases report_cases hreport with ⟨earlier, line, later, hsplit, hrefused⟩ |
      ⟨labels, statement, fault, hrefused, rfl⟩ | ⟨layout, hlayout, hfaultless, hlarge, rfl⟩
    · refine ⟨?_, ⟨hrefused.exists_duplicateLabel, ?_⟩, ?_⟩
      · rw [hrefused.line_eq]
        intro hnone
        cases hnone
      · rintro ⟨name, hfault⟩
        exact (hrefused.previous_eq hfault later).2
      · intro name hfault
        rw [hsplit]
        exact (hrefused.previous_eq hfault later).1
    · have hne := hrefused.ne_duplicateLabel
      simp [hne]
    · exact ⟨fun _ => ⟨layout, hlayout, hfaultless, hlarge, rfl⟩, by simp, by simp⟩

/-- The label on the last line hides the mnemonic on the first. -/
theorem assemble_outcome_late_duplicate :
    let source := "foo r1\nend: nop\nend: nop"
    ¬Layout.Accepted (kept source) ∧
      ∃ earlier line later report, kept source = earlier ++ line :: later ∧
        Layout.Accepted earlier ∧ line.RefusedAfter earlier report ∧
        assemble source = .error report ∧ report.fault = .duplicateLabel "end" ∧
        report.line = some ⟨3, "end: nop"⟩ ∧ report.previous = some ⟨2, "end: nop"⟩ := by
  intro source
  have hlines : (Layout.ofLines (kept source)).toOption.isNone := by decide +kernel
  have hreported : (match assemble source with
      | .ok _ => none
      | .error report => some (report.fault, report.line)) =
        some (.duplicateLabel "end", some ⟨3, "end: nop"⟩) := by decide +kernel
  have hfirst : (kept source).find? (·.label? == some "end") = some ⟨2, "end: nop"⟩ := by
    decide +kernel
  have hrefused : ¬Layout.Accepted (kept source) := by
    intro haccepted
    obtain ⟨layout, hlayout⟩ := Layout.exists_ofLines_eq_ok_iff.mpr haccepted
    rw [hlayout] at hlines
    cases hlines
  obtain ⟨hline, -, hreport⟩ := assemble_outcome source
  obtain ⟨earlier, line, later, report, hsplit, hearlier, hafter, hassemble⟩ := hline hrefused
  rw [hassemble] at hreported
  obtain ⟨hfault, hplace⟩ := Prod.mk.inj (Option.some.inj hreported)
  have hprevious := (hreport report hassemble).2.2 "end" hfault
  exact ⟨hrefused, earlier, line, later, report, hsplit, hearlier, hafter, hassemble, hfault,
    hplace, hprevious.trans hfirst⟩

end WordAssembler
