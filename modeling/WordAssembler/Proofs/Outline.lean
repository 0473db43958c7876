import WordAssembler.Proofs.Assembly
import WordAssembler.Proofs.Content
import WordAssembler.Proofs.Lines

/-!
# What an assembly takes from its source

Reports, statements and warnings carry source lines, but no decision of either pass looks at them.
Both passes are followed here with the lines left out: the first on the entries that the lines hold,
the second on the addresses and codes of the statements. Two sources with the same entries are
therefore assembled alike.
-/

namespace WordAssembler

namespace Pass

variable {α β γ δ : Type}

/-- The result of a pass without its lines: of a report the fault alone, of a success what `view`
shows of it. -/
def outcome (view : α → β) (x : Except Report α) : Except Fault β :=
  (x.mapError Report.fault).map view

theorem outcome_eq_ok {view : α → β} {x : Except Report α} {b : β} :
    outcome view x = .ok b ↔ ∃ a, x = .ok a ∧ view a = b := by
  cases x <;> simp [outcome, Except.mapError, Except.map]

/-- What is seen of two passes in a row is determined by what is seen of each. -/
theorem outcome_bind {view : α → β} {view' : γ → δ} {f : α → Except Report γ}
    {g : β → Except Fault δ} (hstep : ∀ a, outcome view' (f a) = g (view a))
    (x : Except Report α) : outcome view' (x >>= f) = outcome view x >>= g := by
  cases x with
  | error report => rfl
  | ok a => exact hstep a

theorem outcome_bind_congr {view : α → β} {view' : γ → δ} {f : α → Except Report γ}
    {x y : Except Report α} (houtcome : outcome view x = outcome view y)
    (hstep : ∀ a b, view a = view b → outcome view' (f a) = outcome view' (f b)) :
    outcome view' (x >>= f) = outcome view' (y >>= f) := by
  cases x with
  | error report =>
      cases y with
      | error report' => exact congrArg Except.error (Except.error.inj houtcome)
      | ok b => cases houtcome
  | ok a =>
      cases y with
      | error report' => cases houtcome
      | ok b => exact hstep a b (Except.ok.inj houtcome)

theorem outcome_mapM {view : α → β} {f : γ → Except Report α} {key : γ → δ}
    {g : δ → Except Fault β} (hstep : ∀ x, outcome view (f x) = g (key x)) (xs : List γ) :
    outcome (List.map view) (xs.mapM f) = (xs.map key).mapM g := by
  induction xs with
  | nil => rfl
  | cons x xs ih =>
      rw [List.mapM_cons, List.map_cons, List.mapM_cons, ← hstep x, ← ih]
      apply outcome_bind
      intro a
      apply outcome_bind
      intro as
      rfl

/-- A run over lines is seen as a run over their entries if one step is. -/
theorem outcome_foldlM {view : α → β} {f : α → γ → Except Report α} {entries : γ → List δ}
    {g : β → δ → Except Fault β}
    (hstep : ∀ a x, outcome view (f a x) = (entries x).foldlM g (view a)) (xs : List γ) (a : α) :
    outcome view (xs.foldlM f a) = (xs.flatMap entries).foldlM g (view a) := by
  induction xs generalizing a with
  | nil => rfl
  | cons x xs ih =>
      rw [List.foldlM_cons, List.flatMap_cons, List.foldlM_append, ← hstep a x]
      exact outcome_bind ih (f a x)

end Pass

open Pass Text

/-! ### The first pass -/

inductive Entry where
  | refused (fault : Fault)
  | label (name : String)
  | code (code : String)
deriving DecidableEq, Repr

namespace LineContent

def codeEntries (content : LineContent) : List Entry :=
  if content.hasCode then [.code content.code] else []

def entries (content : LineContent) : List Entry :=
  (content.label.map Entry.label).toList ++ content.codeEntries

end LineContent

def Entry.ofText (text : String) : List Entry :=
  match LineContent.ofText text with
  | .ok content => content.entries
  | .error fault => [.refused fault]

/-- A layout without its lines: names with their addresses, and addresses with their code. -/
structure Outline where
  labels : List (String × Nat) := []
  statements : List (Nat × String) := []
deriving DecidableEq, Repr

def Outline.add (outline : Outline) : Entry → Except Fault Outline
  | .refused fault => .error fault
  | .label name =>
    if name ∈ outline.labels.map Prod.fst then .error (.duplicateLabel name)
    else .ok { outline with labels := outline.labels ++ [(name, outline.statements.length)] }
  | .code code => .ok
      { outline with statements := outline.statements ++ [(outline.statements.length, code)] }

namespace Layout

def outline (layout : Layout) : Outline :=
  ⟨layout.labels.toList, layout.statements.toList.map fun statement =>
    (statement.address, statement.code)⟩

theorem outcome_placeCode (layout : Layout) (content : LineContent) (line : SourceLine) :
    outcome outline (.ok (layout.placeCode content line)) =
      content.codeEntries.foldlM Outline.add layout.outline := by
  unfold placeCode LineContent.codeEntries
  split_ifs
  · simp only [List.foldlM_cons, List.foldlM_nil, bind_pure]
    simp [outcome, Except.mapError, Except.map, Outline.add, outline, place, next]
  · rfl

theorem map_fst_outline_labels (layout : Layout) :
    layout.outline.labels.map Prod.fst = layout.labels.names := by
  rw [outline, LabelTable.toList, List.map_map]
  rfl

theorem outcome_define (layout : Layout) (name : String) (line : SourceLine) :
    outcome outline (layout.define name line) = layout.outline.add (.label name) := by
  have hnext : layout.outline.statements.length = layout.next := by
    rw [outline, List.length_map, Array.length_toList, next]
  simp only [Outline.add, map_fst_outline_labels, hnext]
  unfold define
  cases hinsert : layout.labels.insert ⟨name, line, layout.next⟩ with
  | error previous =>
      obtain ⟨earlier, hfind, -⟩ := LabelTable.insert_eq_error_iff.mp hinsert
      have hname : name ∈ layout.labels.names := by
        by_contra hname
        rw [LabelTable.find?_eq_none_of_not_mem hname] at hfind
        cases hfind
      rw [if_pos hname]
      rfl
  | ok labels =>
      obtain ⟨hfind, hlabels⟩ := LabelTable.insert_eq_ok_iff.mp hinsert
      have hname : name ∉ layout.labels.names := by
        intro hmem
        obtain ⟨label, hlabel, hlabelName⟩ := List.mem_map.mp hmem
        exact LabelTable.name_ne_of_find?_eq_none hfind label hlabel hlabelName
      rw [if_neg hname]
      simp [outcome, Except.mapError, Except.map, outline, LabelTable.toList, hlabels]

/-- The step of the first pass: a line does to the outline what its entries do, one by one. -/
theorem outcome_addLine (layout : Layout) (line : SourceLine) :
    outcome outline (layout.addLine line) =
      (Entry.ofText line.text).foldlM Outline.add layout.outline := by
  unfold Entry.ofText
  cases hread : LineContent.ofText line.text with
  | error fault =>
      rw [addLine_of_error hread]
      rfl
  | ok content =>
      simp only [LineContent.entries, List.foldlM_append]
      cases hlabel : content.label with
      | none =>
          rw [addLine_of_unlabelled hread hlabel, outcome_placeCode]
          rfl
      | some name =>
          rw [addLine_of_labelled hread hlabel, Option.map_some, Option.toList_some,
            List.foldlM_cons, ← outcome_define layout name line]
          simp only [List.foldlM_nil, bind_pure]
          apply outcome_bind
          intro defined
          exact outcome_placeCode defined content line

theorem outcome_ofLines (lines : List SourceLine) :
    outcome outline (ofLines lines) =
      (lines.flatMap fun line => Entry.ofText line.text).foldlM Outline.add {} :=
  outcome_foldlM outcome_addLine lines {}

end Layout

/-! ### The second pass -/

def Operation.readAt (labels : LabelTable) (placed : Nat × String) :
    Except Fault (Operation × Instruction) := do
  let operation ← parse placed.2
  let instruction ← operation.resolve labels placed.1
  return (operation, instruction)

theorem LabelTable.address?_eq_find?_toList (table : LabelTable) (name : String) :
    table.address? name = (table.toList.find? (·.1 == name)).map Prod.snd := by
  rw [address?, find?, toList, List.find?_map, Option.map_map]
  rfl

theorem Operation.readAt_congr {labels other : LabelTable}
    (hlabels : labels.toList = other.toList) : readAt labels = readAt other := by
  funext placed
  unfold readAt
  congr 1
  funext operation
  have hresolve : operation.resolve labels placed.1 = operation.resolve other placed.1 := by
    apply resolve_congr
    intro token _
    unfold offset
    rw [LabelTable.address?_eq_find?_toList, LabelTable.address?_eq_find?_toList, hlabels]
  rw [hresolve]

theorem Statement.outcome_assemble (labels : LabelTable) (statement : Statement) :
    outcome (fun listed => (listed.operation, listed.instruction)) (statement.assemble labels) =
      Operation.readAt labels (statement.address, statement.code) := by
  unfold Statement.assemble Operation.readAt
  cases Operation.parse statement.code with
  | error fault => rfl
  | ok operation =>
      cases hresolve : operation.resolve labels statement.address with
      | error fault =>
          simp only [bind, Except.bind, hresolve]
          rfl
      | ok instruction =>
          simp only [bind, Except.bind, hresolve]
          rfl

namespace Assembly

/-- The words, the labels with their addresses, and the messages of the warnings. -/
def essence (assembly : Assembly) : List Word × List (String × Nat) × List String :=
  (assembly.program.words, assembly.labels.toList,
    assembly.warnings.map fun warning => warning.truncation.message)

def finish (labels : List (String × Nat)) (read : List (Operation × Instruction)) :
    Except Fault (List Word × List (String × Nat) × List String) := do
  let program ← Program.ofWords (read.map fun r => Instruction.encode r.2)
  return (program.words, labels,
    read.filterMap fun r => (Operation.truncation? r.1).map Truncation.message)

/-- The second pass sees of a layout only its outline. -/
theorem outcome_ofLayout (layout : Layout) :
    outcome essence (ofLayout layout) =
      layout.outline.statements.mapM (Operation.readAt layout.labels) >>=
        finish layout.outline.labels := by
  have hlisting := outcome_mapM (Statement.outcome_assemble layout.labels)
    layout.statements.toList
  rw [Layout.outline, ← hlisting, ofLayout]
  apply outcome_bind
  intro listing
  have hwords : (listing.map fun listed => (listed.operation, listed.instruction)).map
      (fun read => Instruction.encode read.2) = listing.map Listed.word := by
    rw [List.map_map]
    rfl
  have hwarnings : (listing.map fun listed => (listed.operation, listed.instruction)).filterMap
      (fun read => (Operation.truncation? read.1).map Truncation.message) =
        (listing.filterMap Listed.warning?).map (·.truncation.message) := by
    rw [List.filterMap_map, List.map_filterMap]
    congr 1
    funext listed
    simp only [Function.comp_apply, Listed.warning?, Option.map_map]
    rfl
  rw [finish, hwords, hwarnings]
  cases Program.ofWords (listing.map Listed.word) with
  | error fault => rfl
  | ok program => rfl

theorem outcome_ofLayout_congr {layout other : Layout} (houtline : layout.outline = other.outline) :
    outcome essence (ofLayout layout) = outcome essence (ofLayout other) := by
  have hlabels : layout.labels.toList = other.labels.toList := congrArg Outline.labels houtline
  rw [outcome_ofLayout, outcome_ofLayout, houtline, Operation.readAt_congr hlabels]

end Assembly

/-! ### Both passes -/

def Entry.ofSource (source : String) : List Entry :=
  (SourceLine.kept source).flatMap fun line => ofText line.text

/-- Sources with the same entries assemble alike, wherever on their lines the entries stand. -/
theorem outcome_assemble_congr {source other : String}
    (hentries : Entry.ofSource source = Entry.ofSource other) :
    outcome Assembly.essence (assemble source) = outcome Assembly.essence (assemble other) := by
  have houtlines : outcome Layout.outline (Layout.ofLines (SourceLine.kept source)) =
      outcome Layout.outline (Layout.ofLines (SourceLine.kept other)) := by
    rw [Layout.outcome_ofLines, Layout.outcome_ofLines]
    exact congrArg (List.foldlM Outline.add {}) hentries
  exact outcome_bind_congr houtlines fun _ _ => Assembly.outcome_ofLayout_congr

/-! ### The entries of raw lines -/

namespace Entry

theorem ofText_congr {text other : String}
    (hbody : LineContent.body text = LineContent.body other) : ofText text = ofText other := by
  unfold ofText
  rw [LineContent.ofText_congr hbody]

theorem ofText_of_body_eq_nil {text : String} (hbody : LineContent.body text = []) :
    ofText text = [] := by
  unfold ofText
  rw [LineContent.ofText_of_body_eq_nil hbody]
  rfl

theorem flatMap_kept (lines : List SourceLine) :
    (lines.filter (!·.isIdle)).flatMap (fun line => ofText line.text) =
      lines.flatMap fun line => ofText line.text := by
  induction lines with
  | nil => rfl
  | cons line lines ih =>
      rw [List.filter_cons, List.flatMap_cons, ← ih]
      by_cases hidle : line.isIdle
      · rw [ofText_of_body_eq_nil (LineContent.body_of_isIdle hidle)]
        simp [hidle]
      · simp [hidle]

theorem ofText_pad {front back : String} (hfront : Blanks front.toList)
    (hback : Blanks back.toList) (text : String) : ofText (front ++ text ++ back) = ofText text :=
  ofText_congr (LineContent.body_pad hfront hback text)

/-- A carriage return is a blank, so whether line breaking takes it off does not show in the
entries. -/
theorem ofText_dropReturn (piece : List Char) :
    ofText (String.ofList (dropReturn piece)) = ofText (String.ofList piece) := by
  unfold dropReturn
  split_ifs with hreturn
  · have hpiece : piece = piece.dropLast ++ ['\r'] :=
      (List.dropLast_append_getLast? '\r' hreturn).symm
    have htext : String.ofList piece = "" ++ String.ofList piece.dropLast ++ "\r" := by
      conv_lhs => rw [hpiece, String.ofList_append]
      simp
    have hblank : Blanks "\r".toList := by
      intro c hc
      obtain rfl := List.mem_singleton.mp hc
      decide
    rw [htext, ofText_pad (by simp [Blanks]) hblank]
  · rfl

theorem flatMap_lines (text : List Char) :
    (lines text).flatMap (fun line => ofText (String.ofList line)) =
      (text.splitOn '\n').flatMap fun line => ofText (String.ofList line) := by
  have hpieces : text.splitOn '\n' ≠ [] := List.splitOn_ne_nil '\n' text
  obtain ⟨ended, last, hsplit⟩ := (List.eq_nil_or_concat _).resolve_left hpieces
  rw [List.concat_eq_append] at hsplit
  -- A last piece that is empty is no line, and holds nothing.
  have hlast : ((some last).filter (· ≠ [])).toList.flatMap
      (fun line => ofText (String.ofList line)) = ofText (String.ofList last) := by
    by_cases hnil : last = []
    · rw [hnil, ofText_of_body_eq_nil rfl]
      rfl
    · simp [Option.filter, hnil]
  rw [lines, hsplit, List.dropLast_concat, List.getLast?_concat, List.flatMap_append,
    List.flatMap_append, List.flatMap_map, hlast]
  simp only [ofText_dropReturn, List.flatMap_singleton]

theorem ofSource_eq_flatMap_rawLines (source : String) :
    ofSource source = (rawLines source).flatMap ofText := by
  have hnumbered : (SourceLine.numbered source).flatMap (fun line => ofText line.text) =
      (lines source.toList).flatMap fun line => ofText (String.ofList line) := by
    conv_rhs => rw [← List.zipIdx_map_fst 1 (lines source.toList), List.flatMap_map]
    rw [SourceLine.numbered, List.flatMap_map]
  rw [ofSource, SourceLine.kept, flatMap_kept, hnumbered, flatMap_lines, rawLines, List.flatMap_map]

end Entry

end WordAssembler
