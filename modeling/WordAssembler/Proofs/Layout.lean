import Mathlib.Data.List.Nodup
import WordAssembler.Layout
import WordAssembler.Proofs.Pass

/-!
# What the first pass computes

The first pass carries the labels and the statements found so far from line to line. What a line
adds depends on the lines before it only through their number of statements, so the whole layout
can be read off the lines at once: `labelsFrom` and `statementsFrom` do that, and the pass succeeds
exactly where every line can be read and the labels so found make a table.
-/

namespace WordAssembler

namespace SourceLine

def label? (line : SourceLine) : Option String :=
  match LineContent.ofText line.text with
  | .ok content => content.label
  | .error _ => none

def code? (line : SourceLine) : Option String :=
  match LineContent.ofText line.text with
  | .ok content => if content.hasCode then some content.code else none
  | .error _ => none

def Readable (line : SourceLine) : Prop :=
  ∃ content, LineContent.ofText line.text = .ok content

def labelsAt (line : SourceLine) (address : Nat) : List Label :=
  (line.label?.map fun name => ⟨name, line, address⟩).toList

def statementsAt (line : SourceLine) (address : Nat) : List Statement :=
  (line.code?.map fun code => ⟨address, code, line⟩).toList

def extent (line : SourceLine) : Nat :=
  line.code?.toList.length

theorem length_statementsAt (line : SourceLine) (address : Nat) :
    (line.statementsAt address).length = line.extent := by
  unfold statementsAt extent
  cases line.code? <;> rfl

end SourceLine

namespace LabelTable

theorem eq_of_labels_eq {table other : LabelTable} (hlabels : table.labels = other.labels) :
    table = other := by
  cases table
  cases other
  cases hlabels
  rfl

def names (table : LabelTable) : List String :=
  table.labels.map Label.name

theorem find?_eq_none_of_not_mem {table : LabelTable} {name : String}
    (hname : name ∉ table.names) : table.find? name = none := by
  rw [find?, List.find?_eq_none]
  intro label hlabel heq
  exact hname (List.mem_map.mpr ⟨label, hlabel, eq_of_beq heq⟩)

theorem find?_eq_none_of_append {table : LabelTable} {label : Label} {rest : List Label}
    (hdistinct : ((table.labels ++ label :: rest).map Label.name).Nodup) :
    table.find? label.name = none := by
  apply find?_eq_none_of_not_mem
  intro hname
  rw [List.map_append, List.nodup_append] at hdistinct
  exact hdistinct.2.2 label.name hname label.name (by simp) rfl

end LabelTable

namespace Layout

/-- What the lines add one after the other, each at the address that the lines before it lead to. -/
def addedFrom {α : Type} (added : SourceLine → Nat → List α) (address : Nat) :
    List SourceLine → List α
  | [] => []
  | line :: lines => added line address ++ addedFrom added (address + line.extent) lines

def labelsFrom (address : Nat) (lines : List SourceLine) : List Label :=
  addedFrom SourceLine.labelsAt address lines

def statementsFrom (address : Nat) (lines : List SourceLine) : List Statement :=
  addedFrom SourceLine.statementsAt address lines

theorem labelsFrom_cons (address : Nat) (line : SourceLine) (lines : List SourceLine) :
    labelsFrom address (line :: lines) =
      line.labelsAt address ++ labelsFrom (address + line.extent) lines :=
  rfl

theorem statementsFrom_cons (address : Nat) (line : SourceLine) (lines : List SourceLine) :
    statementsFrom address (line :: lines) =
      line.statementsAt address ++ statementsFrom (address + line.extent) lines :=
  rfl

def extent : List SourceLine → Nat
  | [] => 0
  | line :: lines => line.extent + extent lines

theorem eq_of_lists_eq {layout other : Layout}
    (hlabels : layout.labels.labels = other.labels.labels)
    (hstatements : layout.statements.toList = other.statements.toList) : layout = other := by
  obtain ⟨labels, statements⟩ := layout
  obtain ⟨otherLabels, otherStatements⟩ := other
  rw [Layout.mk.injEq]
  exact ⟨LabelTable.eq_of_labels_eq hlabels, Array.toList_inj.mp hstatements⟩

/-! ### One line -/

/-- A label is defined exactly where the longer list still has no name twice. -/
theorem define_eq_ok {layout result : Layout} {name : String} {line : SourceLine} :
    layout.define name line = .ok result ↔
      result.labels.labels = layout.labels.labels ++ [⟨name, line, layout.next⟩] ∧
        result.statements = layout.statements := by
  unfold define
  cases hinsert : layout.labels.insert ⟨name, line, layout.next⟩ with
  | error previous =>
      simp only [reduceCtorEq, false_iff, not_and]
      intro hlabels
      obtain ⟨earlier, hfind, -⟩ := LabelTable.insert_eq_error_iff.mp hinsert
      have hdistinct := result.labels.distinct
      rw [hlabels] at hdistinct
      have hnone := LabelTable.find?_eq_none_of_append hdistinct
      rw [hfind] at hnone
      cases hnone
  | ok labels =>
      obtain ⟨-, hlabels⟩ := LabelTable.insert_eq_ok_iff.mp hinsert
      simp only [Except.ok.injEq]
      constructor
      · rintro rfl
        exact ⟨hlabels, rfl⟩
      · rintro ⟨hresult, hstatements⟩
        exact eq_of_lists_eq (hlabels.trans hresult.symm) (by rw [hstatements])

def placeCode (content : LineContent) (line : SourceLine) (layout : Layout) : Layout :=
  if content.hasCode then layout.place content.code line else layout

theorem labels_placeCode (content : LineContent) (line : SourceLine) (layout : Layout) :
    (layout.placeCode content line).labels = layout.labels := by
  unfold placeCode
  split_ifs <;> rfl

theorem statements_placeCode {content : LineContent} {line : SourceLine} (layout : Layout)
    (hread : LineContent.ofText line.text = .ok content) :
    (layout.placeCode content line).statements.toList =
      layout.statements.toList ++ line.statementsAt layout.next := by
  unfold placeCode SourceLine.statementsAt SourceLine.code?
  rw [hread]
  by_cases hcode : content.hasCode
  · simp [hcode, place]
  · simp [hcode]

section AddLine

variable {layout result : Layout} {line : SourceLine} {content : LineContent}

theorem addLine_of_error {fault : Fault} (hread : LineContent.ofText line.text = .error fault) :
    layout.addLine line = .error (Report.at line fault) := by
  rw [addLine, hread]
  rfl

theorem addLine_of_unlabelled (hread : LineContent.ofText line.text = .ok content)
    (hlabel : content.label = none) :
    layout.addLine line = .ok (layout.placeCode content line) := by
  obtain ⟨label, code⟩ := content
  subst hlabel
  rw [addLine, hread]
  rfl

theorem addLine_of_labelled {name : String} (hread : LineContent.ofText line.text = .ok content)
    (hlabel : content.label = some name) :
    layout.addLine line = layout.define name line >>= fun defined =>
      .ok (defined.placeCode content line) := by
  obtain ⟨label, code⟩ := content
  subst hlabel
  rw [addLine, hread]
  rfl

theorem labelsAt_of_read (hread : LineContent.ofText line.text = .ok content) (address : Nat) :
    line.labelsAt address = (content.label.map fun name => ⟨name, line, address⟩).toList := by
  rw [SourceLine.labelsAt, SourceLine.label?, hread]

/-- One line adds its label and its code at the next free address and leaves what was laid out
before. -/
theorem addLine_eq_ok : layout.addLine line = .ok result ↔ line.Readable ∧
    result.labels.labels = layout.labels.labels ++ line.labelsAt layout.next ∧
    result.statements.toList = layout.statements.toList ++ line.statementsAt layout.next := by
  cases hread : LineContent.ofText line.text with
  | error fault => simp [addLine_of_error hread, SourceLine.Readable, hread]
  | ok content =>
      have hreadable : line.Readable := ⟨content, hread⟩
      rw [labelsAt_of_read hread]
      cases hlabel : content.label with
      | none =>
          rw [addLine_of_unlabelled hread hlabel, ← statements_placeCode layout hread]
          simp only [Except.ok.injEq, hreadable, true_and, Option.map_none, Option.toList_none,
            List.append_nil]
          constructor
          · rintro rfl
            exact ⟨by rw [labels_placeCode], rfl⟩
          · rintro ⟨hlabels, hstatements⟩
            exact eq_of_lists_eq (by rw [labels_placeCode, hlabels]) hstatements.symm
      | some name =>
          rw [addLine_of_labelled hread hlabel, Pass.bind_eq_ok]
          simp only [Except.ok.injEq, hreadable, true_and, Option.map_some, Option.toList_some]
          constructor
          · rintro ⟨defined, hdefined, rfl⟩
            obtain ⟨hlabels, hstatements⟩ := define_eq_ok.mp hdefined
            refine ⟨by rw [labels_placeCode, hlabels], ?_⟩
            rw [statements_placeCode defined hread, next, next, hstatements]
          · rintro ⟨hlabels, hstatements⟩
            let defined : Layout := ⟨result.labels, layout.statements⟩
            refine ⟨defined, define_eq_ok.mpr ⟨hlabels, rfl⟩, eq_of_lists_eq ?_ ?_⟩
            · rw [labels_placeCode]
            · rw [statements_placeCode defined hread, hstatements]
              rfl

end AddLine

/-! ### All lines -/

theorem next_of_statements {layout result : Layout} {statements : List Statement}
    (hstatements : result.statements.toList = layout.statements.toList ++ statements) :
    result.next = layout.next + statements.length := by
  rw [next, next, ← Array.length_toList, hstatements, List.length_append, Array.length_toList]

/-- Lines add what they hold one after the other. The condition that no label is defined twice is
not stated: the label table that results carries it. -/
theorem foldlM_addLine_eq_ok {lines : List SourceLine} {layout result : Layout} :
    lines.foldlM addLine layout = .ok result ↔ (∀ line ∈ lines, line.Readable) ∧
      result.labels.labels = layout.labels.labels ++ labelsFrom layout.next lines ∧
      result.statements.toList =
        layout.statements.toList ++ statementsFrom layout.next lines := by
  induction lines generalizing layout with
  | nil =>
      simp only [List.foldlM_nil, Pass.pure_eq_ok, labelsFrom, statementsFrom, addedFrom,
        List.append_nil, List.not_mem_nil, false_implies, implies_true, true_and]
      constructor
      · rintro rfl
        exact ⟨rfl, rfl⟩
      · rintro ⟨hlabels, hstatements⟩
        exact (eq_of_lists_eq hlabels hstatements).symm
  | cons line lines ih =>
      simp only [List.foldlM_cons, Pass.bind_eq_ok, addLine_eq_ok, ih, labelsFrom_cons,
        statementsFrom_cons, List.forall_mem_cons]
      constructor
      · rintro ⟨middle, ⟨hline, hlabels, hstatements⟩, hlines, hlabels', hstatements'⟩
        have hnext := next_of_statements hstatements
        rw [SourceLine.length_statementsAt] at hnext
        rw [hnext, hlabels, List.append_assoc] at hlabels'
        rw [hnext, hstatements, List.append_assoc] at hstatements'
        exact ⟨⟨hline, hlines⟩, hlabels', hstatements'⟩
      · rintro ⟨⟨hline, hlines⟩, hlabels, hstatements⟩
        rw [← List.append_assoc] at hlabels hstatements
        -- The labels up to this line are among those of the result, so they make a table too.
        have hdistinct := result.labels.distinct
        rw [hlabels, List.map_append] at hdistinct
        let middle : Layout :=
          { labels := ⟨layout.labels.labels ++ line.labelsAt layout.next,
              (List.nodup_append.mp hdistinct).1⟩
            statements := (layout.statements.toList ++ line.statementsAt layout.next).toArray }
        have hnext : middle.next = layout.next + line.extent := by
          rw [← line.length_statementsAt layout.next]
          exact next_of_statements (List.toList_toArray ..)
        refine ⟨middle, ⟨hline, rfl, List.toList_toArray ..⟩, hlines, ?_, ?_⟩
        · rw [hnext, hlabels]
        · rw [hnext, hstatements]

theorem ofLines_eq_ok {lines : List SourceLine} {layout : Layout} :
    ofLines lines = .ok layout ↔ (∀ line ∈ lines, line.Readable) ∧
      layout.labels.labels = labelsFrom 0 lines ∧
      layout.statements.toList = statementsFrom 0 lines :=
  foldlM_addLine_eq_ok

/-- The first label of a name was defined on the first line with this label. -/
theorem find?_labelsFrom (lines : List SourceLine) (address : Nat) (name : String) :
    ((labelsFrom address lines).find? (·.name == name)).map Label.line =
      lines.find? (·.label? == some name) := by
  induction lines generalizing address with
  | nil => rfl
  | cons line lines ih =>
      rw [labelsFrom_cons, List.find?_append, SourceLine.labelsAt, List.find?_cons]
      cases hlabel : line.label? with
      | none => simpa [hlabel] using ih (address + line.extent)
      | some found =>
          by_cases heq : found = name
          · simp [heq]
          · have hbeq : (found == name) = false := by simpa using heq
            simpa [hbeq] using ih (address + line.extent)

theorem length_statementsFrom (address : Nat) (lines : List SourceLine) :
    (statementsFrom address lines).length = extent lines := by
  induction lines generalizing address with
  | nil => rfl
  | cons line lines ih =>
      rw [statementsFrom_cons, List.length_append, SourceLine.length_statementsAt, ih, extent]

theorem address_of_getElem?_statementsFrom {address index : Nat} {lines : List SourceLine}
    {statement : Statement} (hstatement : (statementsFrom address lines)[index]? = some statement) :
    statement.address = address + index := by
  induction lines generalizing address index with
  | nil => simp [statementsFrom, addedFrom] at hstatement
  | cons line lines ih =>
      rw [statementsFrom_cons, List.getElem?_append, SourceLine.length_statementsAt] at hstatement
      split_ifs at hstatement with hindex
      · obtain ⟨hlt, -⟩ := List.getElem?_eq_some_iff.mp hstatement
        unfold SourceLine.statementsAt at hstatement hlt
        cases hcode : line.code? with
        | none => simp [hcode] at hlt
        | some code =>
            have hzero : index = 0 := by simpa [hcode] using hlt
            simp only [hcode, hzero, Option.map_some, Option.toList_some, List.getElem?_cons_zero,
              Option.some.injEq] at hstatement
            rw [← hstatement, hzero, Nat.add_zero]
      · rw [ih hstatement]
        omega

theorem address_of_getElem?_statements {lines : List SourceLine} {layout : Layout}
    (hlayout : ofLines lines = .ok layout) {index : Nat} {statement : Statement}
    (hstatement : layout.statements[index]? = some statement) : statement.address = index := by
  obtain ⟨-, -, hstatements⟩ := ofLines_eq_ok.mp hlayout
  rw [← Array.getElem?_toList, hstatements] at hstatement
  rw [address_of_getElem?_statementsFrom hstatement, Nat.zero_add]

theorem address_le_of_mem_labelsFrom {address : Nat} {lines : List SourceLine} {label : Label}
    (hlabel : label ∈ labelsFrom address lines) : label.address ≤ address + extent lines := by
  induction lines generalizing address with
  | nil => cases hlabel
  | cons line lines ih =>
      rw [extent]
      rcases List.mem_append.mp hlabel with hhere | hlater
      · obtain ⟨name, -, rfl⟩ := Option.map_eq_some_iff.mp (Option.mem_toList.mp hhere)
        exact Nat.le_add_right _ _
      · have hle := ih hlater
        omega

end Layout

/-! ### The first line that is refused -/

/-- Holds of a line that the first pass cannot get past once it has gone through the earlier ones,
and of the report that says why: the line cannot be read, or an earlier line has its label. -/
inductive SourceLine.RefusedAfter (earlier : List SourceLine) (line : SourceLine) : Report → Prop
  | unreadable {fault : Fault} (hread : LineContent.ofText line.text = .error fault) :
      RefusedAfter earlier line { fault, line := some line }
  | redefines {name : String} {first : SourceLine} (hlabel : line.label? = some name)
      (hfirst : earlier.find? (·.label? == some name) = some first) :
      RefusedAfter earlier line
        { fault := .duplicateLabel name, line := some line, previous := some first }

namespace Layout

def Accepted (lines : List SourceLine) : Prop :=
  ∀ earlier line later, lines = earlier ++ line :: later →
    ¬∃ report, line.RefusedAfter earlier report

theorem define_eq_error {layout : Layout} {name : String} {line : SourceLine} {report : Report} :
    layout.define name line = .error report ↔
      ∃ first, (layout.labels.find? name).map Label.line = some first ∧
        report = { fault := .duplicateLabel name, line := some line, previous := some first } := by
  unfold define
  cases hinsert : layout.labels.insert ⟨name, line, layout.next⟩ with
  | error previous =>
      obtain ⟨earlier, hfind, rfl⟩ := LabelTable.insert_eq_error_iff.mp hinsert
      simp [hfind, eq_comm]
  | ok labels =>
      obtain ⟨hfind, -⟩ := LabelTable.insert_eq_ok_iff.mp hinsert
      simp [hfind]

/-- A line is refused for what it holds or for a label that an earlier line has. -/
theorem addLine_eq_error {earlier : List SourceLine} {layout : Layout}
    (hearlier : ofLines earlier = .ok layout) {line : SourceLine} {report : Report} :
    layout.addLine line = .error report ↔ line.RefusedAfter earlier report := by
  obtain ⟨-, hlabels, -⟩ := ofLines_eq_ok.mp hearlier
  have hfind : ∀ name, (layout.labels.find? name).map Label.line =
      earlier.find? (·.label? == some name) := by
    intro name
    rw [LabelTable.find?, hlabels, find?_labelsFrom]
  cases hread : LineContent.ofText line.text with
  | error fault =>
      have hlabel : line.label? = none := by rw [SourceLine.label?, hread]
      rw [addLine_of_error hread]
      constructor
      · rintro ⟨⟩
        exact .unreadable hread
      · rintro (⟨hread'⟩ | ⟨hlabel', -⟩)
        · rw [hread] at hread'
          cases hread'
          rfl
        · rw [hlabel] at hlabel'
          cases hlabel'
  | ok content =>
      have hlabel : line.label? = content.label := by rw [SourceLine.label?, hread]
      cases hcontent : content.label with
      | none =>
          rw [addLine_of_unlabelled hread hcontent]
          constructor
          · rintro ⟨⟩
          · rintro (⟨hread'⟩ | ⟨hlabel', -⟩)
            · rw [hread] at hread'
              cases hread'
            · rw [hlabel, hcontent] at hlabel'
              cases hlabel'
      | some name =>
          rw [addLine_of_labelled hread hcontent, Pass.bind_eq_error, define_eq_error]
          constructor
          · rintro (⟨first, hfirst, rfl⟩ | ⟨defined, -, hplace⟩)
            · exact .redefines (hlabel.trans hcontent) (hfind name ▸ hfirst)
            · cases hplace
          · rintro (⟨hread'⟩ | ⟨hlabel', hfirst⟩)
            · rw [hread] at hread'
              cases hread'
            · rw [hlabel, hcontent] at hlabel'
              cases hlabel'
              exact Or.inl ⟨_, (hfind name).trans hfirst, rfl⟩

theorem ofLines_append (earlier later : List SourceLine) :
    ofLines (earlier ++ later) = ofLines earlier >>= fun layout => later.foldlM addLine layout :=
  List.foldlM_append

/-- The line that is reported is the first that is refused after the lines above it. -/
theorem ofLines_eq_error {lines : List SourceLine} {report : Report} :
    ofLines lines = .error report ↔ ∃ earlier line later, lines = earlier ++ line :: later ∧
      (∃ layout, ofLines earlier = .ok layout) ∧ line.RefusedAfter earlier report := by
  rw [ofLines, Pass.foldlM_eq_error]
  constructor
  · rintro ⟨earlier, line, later, layout, hlines, hearlier, hline⟩
    exact ⟨earlier, line, later, hlines, ⟨layout, hearlier⟩,
      (addLine_eq_error hearlier).mp hline⟩
  · rintro ⟨earlier, line, later, hlines, ⟨layout, hearlier⟩, hrefused⟩
    exact ⟨earlier, line, later, layout, hlines, hearlier,
      (addLine_eq_error hearlier).mpr hrefused⟩

/-- Lines are laid out exactly where none of them is refused after those above it. -/
theorem exists_ofLines_eq_ok_iff {lines : List SourceLine} :
    (∃ layout, ofLines lines = .ok layout) ↔ Accepted lines := by
  constructor
  · rintro ⟨layout, hlayout⟩ earlier line later rfl ⟨report, hrefused⟩
    rw [ofLines_append, Pass.bind_eq_ok] at hlayout
    obtain ⟨before, hbefore, hrest⟩ := hlayout
    rw [List.foldlM_cons, (addLine_eq_error hbefore).mpr hrefused] at hrest
    cases hrest
  · intro haccepted
    cases hlines : ofLines lines with
    | ok layout => exact ⟨layout, rfl⟩
    | error report =>
        obtain ⟨earlier, line, later, hsplit, -, hrefused⟩ := ofLines_eq_error.mp hlines
        exact absurd ⟨report, hrefused⟩ (haccepted earlier line later hsplit)

end Layout

end WordAssembler
