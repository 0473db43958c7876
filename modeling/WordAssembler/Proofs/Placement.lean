import WordAssembler.Proofs.Content
import WordAssembler.Proofs.Layout

/-!
# Where labels and statements are placed

The first pass carries a label table, the statements and an address from line to line, and may stop
in the middle of a line. What it computes can be said of the lines alone: the statements are the
lines with code, numbered from zero, and a label stands at the number of lines with code above it.
-/

namespace WordAssembler

def SourceLine.holdsCode (line : SourceLine) : Bool :=
  line.code?.isSome

theorem SourceLine.extent_eq (line : SourceLine) :
    line.extent = if line.holdsCode then 1 else 0 := by
  unfold extent holdsCode
  cases line.code? <;> rfl

namespace Layout

def codeAbove (lines : List SourceLine) (index : Nat) : Nat :=
  (lines.take index).countP SourceLine.holdsCode

/-- The labels of the lines in order, each at the number of lines with code above its own. -/
def placedLabels (lines : List SourceLine) : List Label :=
  lines.zipIdx.filterMap fun (line, index) =>
    line.label?.map fun name => ⟨name, line, codeAbove lines index⟩

def placedStatements (lines : List SourceLine) : List Statement :=
  (lines.filterMap fun line => line.code?.map (line, ·)).mapIdx fun index (line, code) =>
    ⟨index, code, line⟩

theorem codeAbove_cons_succ (line : SourceLine) (lines : List SourceLine) (index : Nat) :
    codeAbove (line :: lines) (index + 1) = line.extent + codeAbove lines index := by
  rw [codeAbove, codeAbove, List.take_succ_cons, List.countP_cons, SourceLine.extent_eq,
    Nat.add_comm]

/-- The address that a running count gives a line is the number of lines with code above it. -/
theorem addedFrom_eq_flatMap {α : Type} (added : SourceLine → Nat → List α) (address : Nat)
    (lines : List SourceLine) : addedFrom added address lines =
      lines.zipIdx.flatMap fun line => added line.1 (address + codeAbove lines line.2) := by
  induction lines generalizing address with
  | nil => rfl
  | cons line lines ih =>
      have hbelow : ∀ below : SourceLine × Nat,
          added below.1 (address + codeAbove (line :: lines) (below.2 + 1)) =
            added below.1 (address + line.extent + codeAbove lines below.2) := by
        intro below
        rw [codeAbove_cons_succ, Nat.add_assoc]
      rw [addedFrom, ih, List.zipIdx_cons, List.flatMap_cons, List.zipIdx_succ, List.flatMap_map]
      simp only [hbelow]
      rfl

theorem labelsFrom_zero (lines : List SourceLine) : labelsFrom 0 lines = placedLabels lines := by
  rw [labelsFrom, addedFrom_eq_flatMap, placedLabels, List.filterMap_eq_flatMap_toList]
  simp only [Nat.zero_add]
  rfl

theorem statementsFrom_eq_mapIdx (address : Nat) (lines : List SourceLine) :
    statementsFrom address lines = (lines.filterMap fun line => line.code?.map (line, ·)).mapIdx
      fun index placed => ⟨address + index, placed.2, placed.1⟩ := by
  induction lines generalizing address with
  | nil => rfl
  | cons line lines ih =>
      rw [statementsFrom_cons, ih, SourceLine.statementsAt, SourceLine.extent]
      cases hcode : line.code? with
      | none => simp [hcode]
      | some code => simp [hcode, List.mapIdx_cons, Nat.add_assoc, Nat.add_comm 1]

theorem statementsFrom_zero (lines : List SourceLine) :
    statementsFrom 0 lines = placedStatements lines := by
  rw [statementsFrom_eq_mapIdx, placedStatements]
  simp only [Nat.zero_add]

/-! ### The labels -/

theorem map_name_labelsFrom (address : Nat) (lines : List SourceLine) :
    (labelsFrom address lines).map Label.name = lines.filterMap SourceLine.label? := by
  induction lines generalizing address with
  | nil => rfl
  | cons line lines ih =>
      rw [labelsFrom_cons, List.map_append, ih, SourceLine.labelsAt]
      cases hlabel : line.label? <;> simp [hlabel]

theorem le_address_of_mem_labelsFrom {address : Nat} {lines : List SourceLine} {label : Label}
    (hlabel : label ∈ labelsFrom address lines) : address ≤ label.address := by
  rw [labelsFrom, addedFrom_eq_flatMap] at hlabel
  obtain ⟨line, -, hline⟩ := List.mem_flatMap.mp hlabel
  obtain ⟨name, -, rfl⟩ := Option.map_eq_some_iff.mp (Option.mem_toList.mp hline)
  exact Nat.le_add_right _ _

/-- Labels stand in the order of their addresses. Two may share one, since a line without code takes
no address. -/
theorem pairwise_labelsFrom (address : Nat) (lines : List SourceLine) :
    (labelsFrom address lines).Pairwise (·.address ≤ ·.address) := by
  induction lines generalizing address with
  | nil => exact .nil
  | cons line lines ih =>
      rw [labelsFrom_cons, List.pairwise_append]
      refine ⟨?_, ih _, ?_⟩
      · unfold SourceLine.labelsAt
        cases line.label? <;> simp
      · intro label hlabel below hbelow
        obtain ⟨name, -, rfl⟩ := Option.map_eq_some_iff.mp (Option.mem_toList.mp hlabel)
        have hle := le_address_of_mem_labelsFrom hbelow
        exact Nat.le_trans (Nat.le_add_right _ _) hle

theorem name_of_label?_eq_some {line : SourceLine} {name : String}
    (hlabel : line.label? = some name) : isIdentifier name ∧ isReserved name = false := by
  unfold SourceLine.label? at hlabel
  split at hlabel
  · rename_i content hread
    obtain ⟨label, code⟩ := content
    subst hlabel
    have hlabelled := LineContent.ofText_eq_labelled_iff.mp hread
    exact ⟨hlabelled.isIdentifier_name, hlabelled.not_reserved⟩
  · cases hlabel

/-- Lines are laid out exactly where each is readable and no two have the same label. -/
theorem exists_ofLines_iff_distinct {lines : List SourceLine} :
    (∃ layout, ofLines lines = .ok layout) ↔
      (∀ line ∈ lines, line.Readable) ∧ (lines.filterMap SourceLine.label?).Nodup := by
  simp only [ofLines_eq_ok]
  constructor
  · rintro ⟨layout, hlines, hlabels, -⟩
    refine ⟨hlines, ?_⟩
    rw [← map_name_labelsFrom 0, ← hlabels]
    exact layout.labels.distinct
  · rintro ⟨hlines, hdistinct⟩
    rw [← map_name_labelsFrom 0] at hdistinct
    exact ⟨⟨⟨labelsFrom 0 lines, hdistinct⟩, (statementsFrom 0 lines).toArray⟩, hlines, rfl,
      List.toList_toArray ..⟩

/-- What was refused stays refused, with the same report, whatever is put below. -/
theorem ofLines_append_of_error {lines : List SourceLine} {report : Report}
    (hlines : ofLines lines = .error report) (more : List SourceLine) :
    ofLines (lines ++ more) = .error report := by
  rw [ofLines_append, hlines]
  rfl

/-- **The first pass.** It succeeds exactly where every line can be read and no label is defined
twice. Its statements are then the lines with code, numbered from zero, and its labels those of the
lines in order, each at the number of lines with code above it. Where it fails, it fails in the
same way whatever lines follow. -/
theorem ofLines_exact :
    (∀ lines, (∃ layout, ofLines lines = .ok layout) ↔
      (∀ line ∈ lines, line.Readable) ∧ (lines.filterMap SourceLine.label?).Nodup) ∧
    (∀ lines layout, ofLines lines = .ok layout →
      layout.statements.toList = placedStatements lines ∧
      layout.labels.labels = placedLabels lines ∧
      layout.labels.labels.Pairwise (·.address ≤ ·.address) ∧
      ∀ label ∈ layout.labels.labels, label.address ≤ layout.statements.size ∧
        isIdentifier label.name ∧ isReserved label.name = false) ∧
    ∀ lines more report, ofLines lines = .error report →
      ofLines (lines ++ more) = .error report := by
  refine ⟨fun lines => exists_ofLines_iff_distinct, ?_, ?_⟩
  · intro lines layout hlayout
    obtain ⟨-, hlabels, hstatements⟩ := ofLines_eq_ok.mp hlayout
    have hsize : layout.statements.size = extent lines := by
      rw [← Array.length_toList, hstatements, length_statementsFrom]
    refine ⟨hstatements.trans (statementsFrom_zero lines),
      hlabels.trans (labelsFrom_zero lines), ?_, ?_⟩
    · rw [hlabels]
      exact pairwise_labelsFrom 0 lines
    · intro label hlabel
      rw [hlabels] at hlabel
      have hname : label.name ∈ lines.filterMap SourceLine.label? := by
        rw [← map_name_labelsFrom 0]
        exact List.mem_map_of_mem hlabel
      obtain ⟨line, -, hline⟩ := List.mem_filterMap.mp hname
      have haddress := address_le_of_mem_labelsFrom hlabel
      rw [Nat.zero_add, ← hsize] at haddress
      exact ⟨haddress, name_of_label?_eq_some hline⟩
  · intro lines more report hlines
    exact ofLines_append_of_error hlines more

theorem ofLines_exact_stacked :
    (∃ layout,
      ofLines [⟨1, "a:"⟩, ⟨2, "b: nop"⟩, ⟨4, "  jmp a ; back"⟩, ⟨5, "end:"⟩] = .ok layout ∧
      layout.statements.toList =
        [⟨0, "nop", ⟨2, "b: nop"⟩⟩, ⟨1, "jmp a", ⟨4, "  jmp a ; back"⟩⟩] ∧
      layout.labels.labels =
        [⟨"a", ⟨1, "a:"⟩, 0⟩, ⟨"b", ⟨2, "b: nop"⟩, 0⟩, ⟨"end", ⟨5, "end:"⟩, 2⟩]) ∧
    ofLines ([⟨1, "x: nop"⟩, ⟨2, "x: stop"⟩] ++ [⟨3, "a b: nop"⟩]) = .error
      { fault := .duplicateLabel "x", line := some ⟨2, "x: stop"⟩,
        previous := some ⟨1, "x: nop"⟩ } := by
  have hlines : ∀ line ∈ ([⟨1, "a:"⟩, ⟨2, "b: nop"⟩, ⟨4, "  jmp a ; back"⟩, ⟨5, "end:"⟩] :
      List SourceLine), line.Readable := by
    simp only [List.forall_mem_cons, List.not_mem_nil, false_implies, implies_true, and_true]
    exact ⟨⟨⟨some "a", ""⟩, rfl⟩, ⟨⟨some "b", "nop"⟩, rfl⟩, ⟨⟨none, "jmp a"⟩, rfl⟩,
      ⟨⟨some "end", ""⟩, rfl⟩⟩
  obtain ⟨layout, hlayout⟩ := (ofLines_exact.1 _).mpr ⟨hlines, by decide +kernel⟩
  obtain ⟨hstatements, hlabels, -⟩ := ofLines_exact.2.1 _ layout hlayout
  refine ⟨⟨layout, hlayout, ?_, ?_⟩, ?_⟩
  · rw [hstatements]
    decide +kernel
  · rw [hlabels]
    decide +kernel
  · exact ofLines_exact.2.2 _ _ _ rfl

end Layout

end WordAssembler
