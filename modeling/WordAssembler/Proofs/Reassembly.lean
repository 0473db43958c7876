import WordAssembler.Proofs.Outline
import WordAssembler.Proofs.Restating

/-!
# Listings can be assembled

Each line of a listing holds the code of its instruction and nothing else, in particular no label,
so the instructions of a listing are read back one by one. The listing of a program is therefore a
source of that program.
-/

namespace WordAssembler

open Text

namespace Instruction

open Operation

/-! ### The line of an instruction -/

def code (i : Instruction) : String :=
  String.ofList (trim (plain i.painted).toList)

theorem parse_code {i : Instruction} (hi : i.Canonical) : parse i.code = .ok i.stated := by
  rw [code, plain_painted, parse_trim_aligned _ i.isIdentifier_tokens,
    ofOperands_tokens hi.family_eq]

/-- Where there are no labels to stand in for its numbers, an instruction is read back from its own
code. -/
theorem readAt_code {i : Instruction} (hi : i.Canonical) {labels : LabelTable}
    (hlabels : ∀ name, labels.address? name = none) (address : Nat) :
    readAt labels (address, i.code) = .ok (i.stated, i) := by
  simp only [readAt, Pass.bind_eq_ok, Pass.pure_eq_ok]
  exact ⟨_, parse_code hi, _, resolve_stated hi hlabels address, rfl⟩

theorem mem_operands {tokens : List String} (htokens : ∀ token ∈ tokens, isIdentifier token)
    {c : Char} (hc : c ∈ (", ".intercalate tokens).toList) :
    isIdentifierChar c ∨ c = ' ' ∨ c = ',' := by
  induction tokens with
  | nil => cases hc
  | cons token tokens ih =>
      rw [List.forall_mem_cons] at htokens
      cases tokens with
      | nil =>
          rw [String.intercalate_singleton] at hc
          exact Or.inl (LineContent.isIdentifierChar_of_mem htokens.1 hc)
      | cons next tokens =>
          simp only [operands_cons, List.mem_append, List.mem_cons] at hc
          rcases hc with hc | hc | hc | hc
          · exact Or.inl (LineContent.isIdentifierChar_of_mem htokens.1 hc)
          · exact Or.inr (Or.inr hc)
          · exact Or.inr (Or.inl hc)
          · exact ih htokens.2 hc

theorem mem_plain_painted {i : Instruction} {c : Char} (hc : c ∈ (plain i.painted).toList) :
    isIdentifierChar c ∨ c = ' ' ∨ c = ',' := by
  rw [plain_painted, String.toList_append, toList_alignLeft] at hc
  rcases List.mem_append.mp hc with hcolumn | hoperand
  · rcases List.mem_append.mp hcolumn with hname | hblank
    · exact Or.inl (LineContent.isIdentifierChar_of_mem i.mnemonic.isIdentifier_name hname)
    · exact Or.inr (Or.inl (List.mem_replicate.mp hblank).2)
  · exact mem_operands i.isIdentifier_tokens hoperand

/-- Printed code is made of tokens, blanks and commas, so it holds neither a line feed nor a colon
nor a comment. -/
theorem not_mem_plain_painted (i : Instruction) {c : Char}
    (hc : isIdentifierChar c = false ∧ c ≠ ' ' ∧ c ≠ ',') : c ∉ (plain i.painted).toList := by
  intro hmem
  rcases mem_plain_painted hmem with hchar | rfl | rfl
  · rw [hc.1] at hchar
    cases hchar
  · exact hc.2.1 rfl
  · exact hc.2.2 rfl

theorem code_ne_empty (i : Instruction) : i.code ≠ "" := by
  have hname := i.mnemonic.isIdentifier_name
  obtain ⟨c, hc⟩ := List.exists_mem_of_ne_nil _ (LineContent.toList_ne_nil_of_isIdentifier hname)
  have hmem : c ∈ (plain i.painted).toList := by simp [plain_painted, toList_alignLeft, hc]
  intro hempty
  rw [code, String.ofList_eq_empty_iff, trim_eq_nil_iff] at hempty
  have hblank := hempty c hmem
  rw [i.mnemonic.solid_name c hc] at hblank
  cases hblank

/-- The line of an instruction holds its code and nothing else. -/
theorem entries_plain_painted (i : Instruction) :
    Entry.ofText (plain i.painted) = [.code i.code] := by
  have hbody := LineContent.body_of_no_comment (i.not_mem_plain_painted (c := ';') (by decide))
  have hcolon : ':' ∉ LineContent.body (plain i.painted) := by
    rw [hbody]
    intro hmem
    exact i.not_mem_plain_painted (by decide) (mem_of_mem_trim hmem)
  rw [Entry.ofText, LineContent.ofText_of_no_colon hcolon, hbody, ← code]
  simp [LineContent.entries, LineContent.codeEntries, LineContent.hasCode, i.code_ne_empty]

end Instruction

/-! ### The listing of a program -/

theorem Outline.foldlM_code (codes : List String) (outline : Outline) :
    ∃ result, (codes.map Entry.code).foldlM Outline.add outline = .ok result ∧
      result.labels = outline.labels ∧
      result.statements.map Prod.snd = outline.statements.map Prod.snd ++ codes := by
  induction codes generalizing outline with
  | nil => exact ⟨outline, rfl, rfl, by simp⟩
  | cons code codes ih =>
      obtain ⟨result, hresult, hlabels, hcodes⟩ := ih
        { outline with statements := outline.statements ++ [(outline.statements.length, code)] }
      refine ⟨result, hresult, hlabels, ?_⟩
      rw [hcodes]
      simp

theorem Entry.ofSource_intercalate {lines : List String}
    (hlines : ∀ line ∈ lines, '\n' ∉ line.toList) :
    ofSource ("\n".intercalate lines) = lines.flatMap ofText := by
  cases lines with
  | nil => decide
  | cons line lines =>
      rw [ofSource_eq_flatMap_rawLines, rawLines_intercalate hlines (List.cons_ne_nil _ _)]

theorem Layout.exists_of_codes {lines : List SourceLine} {codes : List String}
    (hentries : (lines.flatMap fun line => Entry.ofText line.text) = codes.map Entry.code) :
    ∃ layout, ofLines lines = .ok layout ∧ layout.outline.labels = [] ∧
      layout.outline.statements.map Prod.snd = codes := by
  obtain ⟨outline, houtline, hlabels, hcodes⟩ := Outline.foldlM_code codes {}
  rw [← hentries, ← outcome_ofLines] at houtline
  obtain ⟨layout, hlayout, rfl⟩ := Pass.outcome_eq_ok.mp houtline
  exact ⟨layout, hlayout, hlabels, hcodes⟩

section Listing

variable {instructions : List Instruction}

/-- Instructions are read back from their codes wherever these are placed. -/
theorem mapM_readAt_code (hcanonical : ∀ i ∈ instructions, i.Canonical) {labels : LabelTable}
    (hlabels : ∀ name, labels.address? name = none) {statements : List (Nat × String)}
    (hcodes : statements.map Prod.snd = instructions.map Instruction.code) :
    statements.mapM (Operation.readAt labels) =
      .ok (instructions.map fun i => (i.stated, i)) := by
  have hsame : List.Forall₂ Eq (instructions.map Instruction.code)
      (statements.map Prod.snd) := by
    rw [hcodes, List.forall₂_eq_eq_eq]
  rw [List.forall₂_map_left_iff, List.forall₂_map_right_iff] at hsame
  have hpairs := ((List.forall₂_and_left _ _).mpr ⟨hcanonical, hsame⟩).flip
  refine Pass.mapM_eq_ok.mpr (List.forall₂_map_right_iff.mpr (hpairs.imp ?_))
  rintro ⟨address, code⟩ i ⟨hi, rfl⟩
  exact Instruction.readAt_code hi hlabels address

theorem outcome_assemble_of_codes (hcanonical : ∀ i ∈ instructions, i.Canonical) {source : String}
    (hentries : Entry.ofSource source = (instructions.map Instruction.code).map Entry.code) :
    Pass.outcome Assembly.essence (assemble source) =
      Assembly.finish [] (instructions.map fun i => (i.stated, i)) := by
  obtain ⟨layout, hlayout, hlabels, hcodes⟩ := Layout.exists_of_codes hentries
  have hassemble : assemble source = Assembly.ofLayout layout := by
    rw [assemble, hlayout]
    rfl
  have haddress : ∀ name, layout.labels.address? name = none := by
    intro name
    have htoList : layout.labels.toList = [] := hlabels
    rw [LabelTable.address?_eq_find?_toList, htoList, List.find?_nil, Option.map_none]
  rw [hassemble, Assembly.outcome_ofLayout, hlabels, mapM_readAt_code hcanonical haddress hcodes]
  rfl

theorem finish_stated (hcanonical : ∀ i ∈ instructions, i.Canonical)
    (hlength : instructions.length ≤ capacity) :
    Assembly.finish [] (instructions.map fun i => (i.stated, i)) =
      .ok (instructions.map Instruction.encode, [], []) := by
  have hwords : (instructions.map Instruction.encode).length ≤ capacity := by
    rwa [List.length_map]
  have hprogram : Program.ofWords (instructions.map Instruction.encode) =
      .ok ⟨instructions.map Instruction.encode, hwords⟩ := Program.ofWords_eq_ok.mpr rfl
  have hwarnings : (instructions.map fun i => (i.stated, i)).filterMap
      (fun r => (Operation.truncation? r.1).map Truncation.message) = [] := by
    rw [List.filterMap_map, List.filterMap_eq_nil_iff]
    intro i hi
    simp [Instruction.truncation?_stated (hcanonical i hi)]
  rw [Assembly.finish, hwarnings, List.map_map]
  change Program.ofWords (instructions.map Instruction.encode) >>= _ = _
  rw [hprogram]
  rfl

end Listing

/-- A line for each word, with the styles taken out of what it shows. -/
def disassembly (words : List Word) : String :=
  "\n".intercalate (words.filterMap fun w => (Instruction.decode? w).map fun i => plain i.painted)

section Words

variable {words : List Word}

theorem map_encode_filterMap (hdecode : ∀ w ∈ words, (Instruction.decode? w).isSome) :
    (words.filterMap Instruction.decode?).map Instruction.encode = words := by
  have hback : ∀ w ∈ words, (Instruction.decode? w).map Instruction.encode = some (id w) := by
    intro w hw
    obtain ⟨i, hi⟩ := Option.isSome_iff_exists.mp (hdecode w hw)
    rw [hi, Option.map_some, Instruction.encode_eq_of_decode?_eq_some hi, id]
  calc (words.filterMap Instruction.decode?).map Instruction.encode
      = words.filterMap fun w => (Instruction.decode? w).map Instruction.encode :=
        List.map_filterMap
    _ = words.map id := List.filterMap_eq_map_iff_forall_eq_some.mpr hback
    _ = words := words.map_id

theorem canonical_of_mem_filterMap :
    ∀ i ∈ words.filterMap Instruction.decode?, i.Canonical := by
  intro i hi
  obtain ⟨w, -, hw⟩ := List.mem_filterMap.mp hi
  exact Instruction.canonical_of_decode?_eq_some hw

/-- A disassembly has one entry for each instruction and no label. -/
theorem entries_disassembly (words : List Word) : Entry.ofSource (disassembly words) =
    ((words.filterMap Instruction.decode?).map Instruction.code).map Entry.code := by
  rw [disassembly, ← List.map_filterMap, Entry.ofSource_intercalate]
  · simp only [List.flatMap_map, Instruction.entries_plain_painted, List.map_map]
    exact List.map_eq_flatMap.symm
  · intro line hline
    obtain ⟨i, -, rfl⟩ := List.mem_map.mp hline
    exact i.not_mem_plain_painted (by decide)

/-- **Disassembly reassembles.** Words that all decode can be shown as a source, one instruction on
each line, and the source is assembled to these words again, without labels and without warnings. -/
theorem assemble_disassembly (hlength : words.length ≤ 32768)
    (hdecode : ∀ w ∈ words, (Instruction.decode? w).isSome) :
    ∃ assembly, assemble (disassembly words) = .ok assembly ∧ assembly.program.words = words ∧
      assembly.labels = ∅ ∧ assembly.warnings = [] := by
  have hwords := map_encode_filterMap hdecode
  have hfits : (words.filterMap Instruction.decode?).length ≤ capacity := by
    rw [← List.length_map Instruction.encode, hwords]
    exact hlength
  have houtcome := outcome_assemble_of_codes canonical_of_mem_filterMap (entries_disassembly words)
  rw [finish_stated canonical_of_mem_filterMap hfits, hwords] at houtcome
  obtain ⟨assembly, hassemble, hessence⟩ := Pass.outcome_eq_ok.mp houtcome
  simp only [Assembly.essence, Prod.mk.injEq, List.map_eq_nil_iff, LabelTable.toList] at hessence
  obtain ⟨hprogram, hlabels, hwarnings⟩ := hessence
  exact ⟨assembly, hassemble, hprogram, LabelTable.eq_of_labels_eq hlabels, hwarnings⟩

end Words

theorem assemble_disassembly_every_family :
    disassembly [0xe3ff, 0xa1f1, 0x3861, 0x701e, 0x7ffa, 0x8000] =
      "xor   r7, r0, 0xF\nldhi  r5, 0x0F\nstw   r1, r6\njnz   r3, -128\ncall  1023\nstop  " ∧
    ∃ assembly, assemble (disassembly [0xe3ff, 0xa1f1, 0x3861, 0x701e, 0x7ffa, 0x8000]) =
        .ok assembly ∧
      assembly.program.words = [0xe3ff, 0xa1f1, 0x3861, 0x701e, 0x7ffa, 0x8000] ∧
      assembly.labels = ∅ ∧ assembly.warnings = [] := by
  have hdecode : [0xe3ff, 0xa1f1, 0x3861, 0x701e, 0x7ffa, 0x8000].all
      (fun w => (Instruction.decode? w).isSome) := by decide +kernel
  exact ⟨by decide +kernel, assemble_disassembly (by decide) (List.all_eq_true.mp hdecode)⟩

end WordAssembler
