import Mathlib.Data.List.Find
import Mathlib.Data.Set.Function
import WordAssembler.Proofs.Outline
import WordAssembler.Proofs.Relocation

/-!
# Names of labels are interchangeable

Labels may be renamed in the lines that define them and in the jumps to them. The first pass puts
the new names where the old ones were, and the second asks the new table for the new name of a
target, so it finds the address that the old table has for the old name, as long as no two names
become one. Targets that are no labels keep their spelling, since they are read as literals, and
then no label may be given that spelling: names and literals share one space.
-/

namespace WordAssembler

open SourceLine

variable {rename : String → String}

/-! ### Statements and lines with other names -/

/-- Holds of codes that state the same operation up to the name of its target. -/
def Operation.Renames (rename : String → String) (code other : String) : Prop :=
  ∃ op, parse code = .ok op ∧ parse other = .ok (op.map id rename)

structure SourceLine.Renames (rename : String → String) (line other : SourceLine) : Prop where
  readable : other.Readable
  label_eq : other.label? = line.label?.map rename
  code_rel : Option.Rel (Operation.Renames rename) line.code? other.code?

theorem Operation.Renames.code_ne_empty {code other : String}
    (hcodes : Operation.Renames rename code other) : code ≠ "" ∧ other ≠ "" := by
  obtain ⟨op, hcode, hother⟩ := hcodes
  constructor
  · rintro rfl
    cases hcode
  · rintro rfl
    cases hother

theorem SourceLine.Renames.of_content {line other : SourceLine} {code renamed : String}
    (label : Option String) (hcodes : Operation.Renames rename code renamed)
    (hline : LineContent.ofText line.text = .ok ⟨label, code⟩)
    (hother : LineContent.ofText other.text = .ok ⟨label.map rename, renamed⟩) :
    line.Renames rename other where
  readable := ⟨_, hother⟩
  label_eq := by rw [label?, label?, hline, hother]
  code_rel := by
    obtain ⟨hcode, hrenamed⟩ := hcodes.code_ne_empty
    simpa [code?, hline, hother, LineContent.hasCode, hcode, hrenamed] using hcodes

structure Statement.Renames (rename : String → String) (statement other : Statement) : Prop where
  address_eq : other.address = statement.address
  code_rel : Operation.Renames rename statement.code other.code

structure Listed.Renames (rename : String → String) (listed other : Listed) : Prop where
  operation_eq : other.operation = listed.operation.map id rename
  instruction_eq : other.instruction = listed.instruction

def LabelTable.Renames (rename : String → String) (labels other : LabelTable) : Prop :=
  other.toList = labels.toList.map fun label => (rename label.1, label.2)

/-! ### The first pass -/

section Lines

variable {lines others : List SourceLine}

theorem SourceLine.Renames.extent_eq {line other : SourceLine} (hline : line.Renames rename other) :
    other.extent = line.extent := by
  have hcode := hline.code_rel
  unfold extent
  generalize line.code? = code?, other.code? = renamed? at hcode ⊢
  cases hcode <;> rfl

theorem SourceLine.Renames.labelsAt_eq {line other : SourceLine}
    (hline : line.Renames rename other) (address : Nat) :
    (other.labelsAt address).map (fun label => (label.name, label.address)) =
      (line.labelsAt address).map fun label => (rename label.name, label.address) := by
  rw [labelsAt, labelsAt, hline.label_eq]
  cases line.label? <;> rfl

theorem SourceLine.Renames.statementsAt_rel {line other : SourceLine}
    (hline : line.Renames rename other) (address : Nat) :
    List.Forall₂ (Statement.Renames rename) (line.statementsAt address)
      (other.statementsAt address) := by
  have hcode := hline.code_rel
  unfold statementsAt
  generalize line.code? = code?, other.code? = renamed? at hcode ⊢
  cases hcode with
  | none => exact .nil
  | some hcode => exact .cons ⟨rfl, hcode⟩ .nil

theorem Layout.labelsFrom_renamed (hlines : List.Forall₂ (SourceLine.Renames rename) lines others)
    (address : Nat) :
    (labelsFrom address others).map (fun label => (label.name, label.address)) =
      (labelsFrom address lines).map fun label => (rename label.name, label.address) := by
  induction hlines generalizing address with
  | nil => rfl
  | cons hline _ ih =>
      rw [labelsFrom_cons, labelsFrom_cons, List.map_append, List.map_append, hline.labelsAt_eq,
        hline.extent_eq, ih]

theorem Layout.statementsFrom_renamed
    (hlines : List.Forall₂ (SourceLine.Renames rename) lines others) (address : Nat) :
    List.Forall₂ (Statement.Renames rename) (statementsFrom address lines)
      (statementsFrom address others) := by
  induction hlines generalizing address with
  | nil => exact .nil
  | cons hline _ ih =>
      rw [statementsFrom_cons, statementsFrom_cons, hline.extent_eq]
      exact List.rel_append (hline.statementsAt_rel address) (ih _)

theorem readable_of_renamed (hlines : List.Forall₂ (SourceLine.Renames rename) lines others) :
    ∀ other ∈ others, other.Readable := by
  induction hlines with
  | nil => simp
  | cons hline _ ih =>
      rw [List.forall_mem_cons]
      exact ⟨hline.readable, ih⟩

end Lines

/-! ### The second pass -/

section Targets

variable {labels other : LabelTable}

/-- A renamed label is found under its new name unless another label was given the same one. -/
theorem LabelTable.Renames.address?_eq (hlabels : labels.Renames rename other) {name : String}
    (hname : ∀ label ∈ labels.names, rename label = rename name → label = name) :
    other.address? (rename name) = labels.address? name := by
  rw [address?_eq_find?_toList, address?_eq_find?_toList, hlabels, List.find?_map, Option.map_map]
  have hsame : labels.toList.find? ((·.1 == rename name) ∘ fun label => (rename label.1, label.2)) =
      labels.toList.find? (·.1 == name) := by
    apply List.find?_congr
    intro label hlabel
    have hmem : label.1 ∈ labels.names := by
      rw [names_eq_map_toList]
      exact List.mem_map_of_mem hlabel
    have hiff : rename label.1 = rename name ↔ label.1 = name :=
      ⟨hname label.1 hmem, congrArg rename⟩
    simp [beq_eq_decide, hiff]
  rw [hsame]
  rfl

theorem LabelTable.not_mem_names_of_address?_eq_none {name : String}
    (hnone : labels.address? name = none) : name ∉ labels.names := by
  intro hname
  obtain ⟨label, hlabel, heq⟩ := List.mem_map.mp hname
  exact name_ne_of_find?_eq_none (Option.map_eq_none_iff.mp hnone) label hlabel heq

namespace Operation

/-- A token that names no label is read as a number, so it must not be renamed. -/
theorem offset_renamed (hlabels : labels.Renames rename other) {token : String}
    (hname : ∀ label ∈ labels.names, rename label = rename token → label = token)
    (hfixed : token ∉ labels.names → rename token = token) (address : Nat) :
    offset other address (rename token) = offset labels address token := by
  unfold offset
  rw [hlabels.address?_eq hname]
  cases haddress : labels.address? token with
  | some destination => rfl
  | none => rw [hfixed (LabelTable.not_mem_names_of_address?_eq_none haddress)]

theorem target?_renamed (rename : String → String) (op : Operation) :
    target? (op.map id rename) = op.target?.map (Prod.map rename id) := by
  rcases op with _ | _ | _ | ⟨m, c, t | token⟩ | ⟨m, t | token⟩ | _ <;> rfl

theorem immediate?_renamed (rename : String → String) (op : Operation) :
    immediate? (op.map id rename) = op.immediate? := by
  rcases op with ⟨m, d, a, b | v⟩ | _ | _ | _ | _ | _ <;> rfl

/-- Resolution looks at a token only through the offset it stands for. -/
theorem resolve_renamed {address : Nat} {op : Operation}
    (hoffset : ∀ token, op.token? = some token →
      offset other address (rename token) = offset labels address token) :
    resolve other address (op.map id rename) = resolve labels address op := by
  cases htarget : op.target? with
  | none =>
      have hrenamed : target? (op.map id rename) = none := by
        rw [target?_renamed, htarget, Option.map_none]
      have hbyte : lowByte (op.map id rename) = op.lowByte := by
        funext v
        rw [lowByte, lowByte, immediate?_renamed]
      rw [resolve_of_target?_eq_none hrenamed, resolve_of_target?_eq_none htarget, hbyte,
        Form.map_map]
      rfl
  | some target =>
      have hrenamed : target? (op.map id rename) = some (rename target.1, target.2) := by
        rw [target?_renamed, htarget, Option.map_some]
        rfl
      have htoken : op.token? = some target.1 := by rw [token?_eq, htarget, Option.map_some]
      rw [resolve_of_target?_eq_some hrenamed, resolve_of_target?_eq_some htarget,
        hoffset target.1 htoken]
      simp only [Form.map_map]
      rfl

theorem truncation?_renamed (rename : String → String) (op : Operation) :
    truncation? (op.map id rename) = truncation? op := by
  rw [truncation?, truncation?, immediate?_renamed]

end Operation

variable {statements others : List Statement} {listing : List Listed}

/-- A renamed statement assembles to the same instruction. -/
theorem Statement.Renames.exists_assemble {statement renamed : Statement} {listed : Listed}
    (hrenamed : statement.Renames rename renamed)
    (hlisted : statement.assemble labels = .ok listed)
    (hoffset : ∀ token, listed.operation.token? = some token → ∀ address,
      Operation.offset other address (rename token) = Operation.offset labels address token) :
    ∃ result, renamed.assemble other = .ok result ∧ listed.Renames rename result := by
  obtain ⟨-, hparse, hresolve⟩ := assemble_eq_ok.mp hlisted
  obtain ⟨op, hop, hother⟩ := hrenamed.code_rel
  rw [hparse] at hop
  cases hop
  refine ⟨⟨renamed, listed.operation.map id rename, listed.instruction⟩, ?_, ⟨rfl, rfl⟩⟩
  refine assemble_eq_ok.mpr ⟨rfl, hother, ?_⟩
  rw [hrenamed.address_eq, ← hresolve]
  exact Operation.resolve_renamed fun token htoken => hoffset token htoken statement.address

/-- Renamed statements assemble one by one to the same listing. -/
theorem Statement.exists_listing_renamed
    (hstatements : List.Forall₂ (Statement.Renames rename) statements others)
    (hlisting : List.Forall₂ (fun statement listed => statement.assemble labels = .ok listed)
      statements listing)
    (hoffset : ∀ listed ∈ listing, ∀ token, listed.operation.token? = some token → ∀ address,
      Operation.offset other address (rename token) = Operation.offset labels address token) :
    ∃ renamed, List.Forall₂ (fun statement listed => statement.assemble other = .ok listed)
      others renamed ∧ List.Forall₂ (Listed.Renames rename) listing renamed := by
  induction hstatements generalizing listing with
  | nil =>
      cases hlisting
      exact ⟨[], .nil, .nil⟩
  | cons hstatement _ ih =>
      cases hlisting with
      | cons hlisted hrest =>
          rw [List.forall_mem_cons] at hoffset
          obtain ⟨result, hresult, hsame⟩ := hstatement.exists_assemble hlisted hoffset.1
          obtain ⟨renamed, hrenamed, hsames⟩ := ih hrest hoffset.2
          exact ⟨result :: renamed, .cons hresult hrenamed, .cons hsame hsames⟩

theorem Listed.words_renamed {renamed : List Listed}
    (hlisting : List.Forall₂ (Listed.Renames rename) listing renamed) :
    renamed.map Listed.word = listing.map Listed.word := by
  induction hlisting with
  | nil => rfl
  | cons hlisted _ ih =>
      rw [List.map_cons, List.map_cons, ih, Listed.word, Listed.word, hlisted.instruction_eq]

theorem Listed.messages_renamed {renamed : List Listed}
    (hlisting : List.Forall₂ (Listed.Renames rename) listing renamed) :
    (renamed.filterMap Listed.warning?).map (·.truncation.message) =
      (listing.filterMap Listed.warning?).map (·.truncation.message) := by
  simp only [List.map_filterMap]
  induction hlisting with
  | nil => rfl
  | cons hlisted _ ih =>
      rw [List.filterMap_cons, List.filterMap_cons, ih]
      simp only [Listed.warning?, Option.map_map, hlisted.operation_eq,
        Operation.truncation?_renamed]
      rfl

end Targets

/-- **Names of labels are interchangeable.** Let a source be assembled, and let another one have the
same lines up to their names: labels and targets are renamed alike, no two of them to one name, and
a target that is no label keeps its spelling. Then the other one is assembled to the same words with
the same warnings, and its labels are the renamed ones at the same addresses, in the same order. -/
theorem assemble_renamed {source other : String} {a : Assembly}
    (ha : assemble source = .ok a)
    (hinjective : Set.InjOn rename {name | name ∈ a.labels.names ∨ name ∈ a.tokens})
    (hfixed : ∀ token ∈ a.tokens, token ∉ a.labels.names → rename token = token)
    (hlines : List.Forall₂ (SourceLine.Renames rename) (kept source) (kept other)) :
    ∃ b, assemble other = .ok b ∧ b.program.words = a.program.words ∧
      b.warnings.map (·.truncation.message) = a.warnings.map (·.truncation.message) ∧
      b.labels.toList = a.labels.toList.map fun label => (rename label.1, label.2) := by
  obtain ⟨-, hlabels, hlisting, hwords⟩ := assemble_eq_ok.mp ha
  have hnames := Layout.labelsFrom_renamed hlines 0
  rw [← hlabels] at hnames
  -- Distinct labels have distinct images, so the renamed labels make a table.
  have hdistinct : ((Layout.labelsFrom 0 (kept other)).map Label.name).Nodup := by
    have hmap : (Layout.labelsFrom 0 (kept other)).map Label.name = a.labels.names.map rename := by
      simpa [LabelTable.names, Function.comp_def] using congrArg (List.map Prod.fst) hnames
    rw [hmap]
    apply a.labels.distinct.map_on
    intro name hname label hlabel
    exact hinjective (Or.inl hname) (Or.inl hlabel)
  obtain ⟨labels, htable⟩ :
      ∃ labels : LabelTable, labels.labels = Layout.labelsFrom 0 (kept other) :=
    ⟨⟨Layout.labelsFrom 0 (kept other), hdistinct⟩, rfl⟩
  have hrenames : a.labels.Renames rename labels := by
    rw [LabelTable.Renames, LabelTable.toList, LabelTable.toList, List.map_map, htable]
    exact hnames
  have hoffset : ∀ listed ∈ a.listing, ∀ token, listed.operation.token? = some token →
      ∀ address, Operation.offset labels address (rename token) =
        Operation.offset a.labels address token := by
    intro listed hlisted token htoken address
    have hmem := Assembly.mem_tokens hlisted htoken
    apply Operation.offset_renamed hrenames
    · intro label hlabel
      exact hinjective (Or.inl hlabel) (Or.inr hmem)
    · exact hfixed token hmem
  obtain ⟨listing, hassembled, hsame⟩ := Statement.exists_listing_renamed
    (Layout.statementsFrom_renamed hlines 0) hlisting hoffset
  refine ⟨⟨labels, listing, a.program⟩, assemble_eq_ok.mpr ⟨readable_of_renamed hlines, htable,
    hassembled, ?_⟩, rfl, Listed.messages_renamed hsame, hrenames⟩
  rw [Listed.words_renamed hsame]
  exact hwords

theorem assemble_renamed_number_for_name :
    ∃ b, assemble "; again\n0x10: jez r1, loop\nloop : add r1, r1, 99\njmp 0x10\njmp -1" = .ok b ∧
      b.program.words = [0x2016, 0x24e3, 0xffb2, 0xfff2] ∧
      b.warnings.map (·.truncation.message) =
        ["Immediate `99` does not fit in 4 bits, truncated to 0x3"] ∧
      b.labels.toList = [("0x10", 0), ("loop", 1)] := by
  let rename : String → String := fun name =>
    if name = "top" then "0x10" else if name = "7" then "loop" else name
  have hassembled : (assemble "top: jez r1, 7\n7: add r1, r1, 99\njmp top\njmp -1").toOption.map
      (fun a => (a.tokens, a.labels.toList, a.program.words, a.warnings)) =
      some (["7", "top", "-1"], [("top", 0), ("7", 1)], [0x2016, 0x24e3, 0xffb2, 0xfff2],
        [⟨⟨2, "7: add r1, r1, 99"⟩, ⟨99, 4⟩⟩]) := by decide +kernel
  obtain ⟨a, ha, hfacts⟩ := Pass.map_toOption_eq_some.mp hassembled
  simp only [Prod.mk.injEq] at hfacts
  obtain ⟨htokens, hlabels, hwords, hwarnings⟩ := hfacts
  have hnames : a.labels.names = ["top", "7"] := by
    rw [LabelTable.names_eq_map_toList, hlabels]
    rfl
  have hsource : kept "top: jez r1, 7\n7: add r1, r1, 99\njmp top\njmp -1" =
      [⟨1, "top: jez r1, 7"⟩, ⟨2, "7: add r1, r1, 99"⟩, ⟨3, "jmp top"⟩, ⟨4, "jmp -1"⟩] := by
    decide +kernel
  have hother : kept "; again\n0x10: jez r1, loop\nloop : add r1, r1, 99\njmp 0x10\njmp -1" =
      [⟨2, "0x10: jez r1, loop"⟩, ⟨3, "loop : add r1, r1, 99"⟩, ⟨4, "jmp 0x10"⟩,
        ⟨5, "jmp -1"⟩] := by decide +kernel
  have hjez : Operation.Renames rename "jez r1, 7" "jez r1, loop" :=
    ⟨.condJump .jez .r1 (.val "7"), by decide +kernel, by decide +kernel⟩
  have hadd : Operation.Renames rename "add r1, r1, 99" "add r1, r1, 99" :=
    ⟨.alu .add .r1 .r1 (.val 99), by decide +kernel, by decide +kernel⟩
  have hback : Operation.Renames rename "jmp top" "jmp 0x10" :=
    ⟨.jump .jmp (.val "top"), by decide +kernel, by decide +kernel⟩
  have hstay : Operation.Renames rename "jmp -1" "jmp -1" :=
    ⟨.jump .jmp (.val "-1"), by decide +kernel, by decide +kernel⟩
  have hlines : List.Forall₂ (SourceLine.Renames rename)
      (kept "top: jez r1, 7\n7: add r1, r1, 99\njmp top\njmp -1")
      (kept "; again\n0x10: jez r1, loop\nloop : add r1, r1, 99\njmp 0x10\njmp -1") := by
    rw [hsource, hother]
    exact .cons (.of_content (some "top") hjez (by decide +kernel) (by decide +kernel))
      (.cons (.of_content (some "7") hadd (by decide +kernel) (by decide +kernel))
        (.cons (.of_content none hback (by decide +kernel) (by decide +kernel))
          (.cons (.of_content none hstay (by decide +kernel) (by decide +kernel)) .nil)))
  have hinjective : Set.InjOn rename {name | name ∈ a.labels.names ∨ name ∈ a.tokens} := by
    rw [hnames, htokens]
    intro name hname other hother
    simp only [Set.mem_ofPred_eq, List.mem_cons, List.not_mem_nil, or_false] at hname hother
    rcases hname with (rfl | rfl) | rfl | rfl | rfl <;>
      rcases hother with (rfl | rfl) | rfl | rfl | rfl <;> decide
  have hfixed : ∀ token ∈ a.tokens, token ∉ a.labels.names → rename token = token := by
    rw [hnames, htokens]
    decide
  obtain ⟨b, hb, hwordsB, hmessagesB, hlabelsB⟩ := assemble_renamed ha hinjective hfixed hlines
  refine ⟨b, hb, hwordsB.trans hwords, ?_, ?_⟩
  · rw [hmessagesB, hwarnings]
    decide +kernel
  · rw [hlabelsB, hlabels]
    rfl

end WordAssembler
